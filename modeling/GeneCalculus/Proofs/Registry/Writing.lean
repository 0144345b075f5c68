import GeneCalculus.Proofs.Registry.History

/-!
What operations write where meanings are kept. Each operation is a chain of steps: bytes are put in
the store, a checked gene comes in, an organism is written under its manifest, and nothing else
happens to these three tables. `puts` tells the bytes of a whole history.
-/

namespace GeneCalculus

namespace Registry

variable {R S : Registry} {P : List UInt8 → Prop} {soul : SoulId}

/-- The byte strings that an operation puts in the store. -/
def Operation.puts (R : Registry) : Operation → List (List UInt8)
  | .put bytes _ _ => [bytes]
  | .register A root _ _ =>
    match A.validateClosed root with
    | .error _ => []
    | .ok _ =>
      let c := (A.canonicalize R.policy.limits root).1
      if c.soul.provisional then [] else [A.snapshot root, c.bytes]
  | .forge name souls targets =>
    match R.manifest name souls targets with
    | .error _ => []
    | .ok m => [m.bytes]
  | .attest name _ now =>
    match R.organism? name with
    | none => []
    | some o => [Text.Utf8.encode (o.statement now).compact]
  | .insertGene _ | .recordEquivalence .. | .recordMetric .. | .insertChampion _ | .recompute _
  | .insertAttestation .. => []

/-- The byte strings that a history puts in the store. -/
def puts (R : Registry) : List Operation → List (List UInt8)
  | [] => []
  | op :: history => op.puts R ++ (R.perform op).2.puts history

/-- One step for the store, the genes and the organisms, which puts no bytes but those of `P` in the
store. -/
inductive Writes (P : List UInt8 → Prop) (R : Registry) : Registry → Prop
  | object (bytes : List UInt8) (kind : ObjectKind) (source : Option String) (meant : P bytes) :
      Writes P R (R.put bytes kind source).2
  | gene (g : Gene) (checked : R.checkGene g = .ok ()) (fresh : R.gene? g.soul g.source = none) :
      Writes P R { R with genes := R.genes ++ [g] }
  | organism (o : Organism) {souls : List SoulId} {m : Manifest}
      (listed : R.manifest o.name souls o.targets = .ok m) (souls : o.souls = m.genes.map (·.1))
      (named : o.manifest = .ofBytes m.bytes) (meant : P m.bytes) :
      Writes P R { R with organisms := upsert (·.name) o R.organisms }
  | elsewhere (edges : List Edge) (champions : List Champion) (attestations : List Attestation)
      (metrics : List Metric) : Writes P R { R with edges, champions, attestations, metrics }

/-- Steps one after the other. -/
abbrev Written (P : List UInt8 → Prop) : Registry → Registry → Prop :=
  Relation.ReflTransGen (Writes P)

/-- Only the table of champions is written. -/
theorem exists_recompute (R : Registry) (soul : SoulId) :
    ∃ champions, (R.recompute soul).2 = { R with champions } := by
  have run := R.recompute_recomputed soul
  generalize R.recompute soul = o at run
  cases run with
  | unknown | unread | notNumber => exact ⟨R.champions, rfl⟩
  | crowned => exact ⟨_, rfl⟩

theorem recompute_writes (R : Registry) (soul : SoulId) : Writes P R (R.recompute soul).2 := by
  obtain ⟨champions, same⟩ := R.exists_recompute soul
  rw [same]
  exact .elsewhere R.edges champions R.attestations R.metrics

theorem insertGene_written (g : Gene) : Written P R (R.insertGene g).2 := by
  have run := R.insertGene_inserted g
  generalize R.insertGene g = o at run
  cases run with
  | keptOut | notNumber | known | knownUnread => exact .refl
  | @entered complexity purity checked _ _ fresh =>
    have entered : Writes P R _ := .gene { g with complexity, purity } checked fresh
    exact .head entered (.single (recompute_writes ..))
  | @enteredUnread complexity purity _ checked fresh =>
    exact .single (.gene { g with complexity, purity } checked fresh)

theorem register_written {A : Arena} {root : NodeId} {source : String} {purity : Option Float}
    (meant : ∀ b ∈ (Operation.register A root source purity).puts R, P b) :
    Written P R (R.register A root source purity).2 := by
  have run := R.register_registered A root source purity
  generalize R.register A root source purity = o at run
  cases run with
  | malformed | provisional => exact .refl
  | submitted valid final =>
    simp only [Operation.puts, valid, if_neg final] at meant
    have snapshot : Writes P R _ :=
      .object (A.snapshot root) .source (some source) (meant _ (by simp))
    have form := Writes.object (R := (R.put (A.snapshot root) .source (some source)).2)
      (A.canonicalize R.policy.limits root).1.bytes .ir (some source) (meant _ (by simp))
    exact .head snapshot (.head form (insertGene_written _))

theorem put_genes (bytes : List UInt8) (kind : ObjectKind) (source : Option String) :
    (R.put bytes kind source).2.genes = R.genes := by
  obtain ⟨objects, same⟩ := R.exists_put bytes kind source
  rw [same]

theorem withObjects_genes (R : Registry) (A : Arena) (root : NodeId) (source : String) :
    (R.withObjects A root source).genes = R.genes := (put_genes ..).trans (put_genes ..)

theorem forge_genes (name : String) (souls : List SoulId) (targets : List String) :
    (R.forge name souls targets).2.genes = R.genes := by
  have run := R.forge_forged name souls targets
  generalize R.forge name souls targets = o at run
  cases run with
  | refused => rfl
  | bundled => exact put_genes ..

theorem forge_written {name : String} {souls : List SoulId} {targets : List String}
    (meant : ∀ b ∈ (Operation.forge name souls targets).puts R, P b) :
    Written P R (R.forge name souls targets).2 := by
  unfold Operation.puts at meant
  have run := R.forge_forged name souls targets
  generalize R.forge name souls targets = o at run
  cases run with
  | refused => exact .refl
  | @bundled m listed =>
    obtain ⟨rfl, rfl, -⟩ := manifest_ok listed
    simp only [listed] at meant
    have stored : Writes P R _ :=
      .object m.bytes .organism (some m.name) (meant _ List.mem_cons_self)
    rw [← manifest_congr (put_genes m.bytes .organism (some m.name)) fun _ => Iff.rfl] at listed
    have bundled : Writes P (R.put m.bytes .organism (some m.name)).2 _ :=
      .organism m.organism listed rfl rfl (meant _ List.mem_cons_self)
    exact .head stored (.single bundled)

theorem insertAttestation_written (organism : String) (cid : Cid) (signature : String) :
    Written P R (R.insertAttestation organism cid signature).2 := by
  unfold insertAttestation
  split
  · exact .refl
  · exact .refl
  · exact .single (.elsewhere R.edges R.champions (R.attestations ++ [_]) R.metrics)

theorem settle_writes {α : Type} (R : Registry) (soul : SoulId) (answer : α) :
    Writes P R (R.settle soul answer).2 := recompute_writes R soul

theorem recordEquivalence_written (a b : SoulId) (confidence : Float) :
    Written P R (R.recordEquivalence a b confidence).2 := by
  unfold recordEquivalence
  split
  · exact .refl
  · exact .head (.elsewhere (R.edges ++ [_]) R.champions R.attestations R.metrics)
      (.single (settle_writes ..))

theorem recordMetric_written (soul : SoulId) (metric : String) (value : Float) :
    Written P R (R.recordMetric soul metric value).2 := by
  unfold recordMetric
  split
  · split
    · exact .refl
    · exact .head (.elsewhere R.edges R.champions R.attestations (R.metrics ++ [_]))
        (.single (settle_writes ..))
  · exact .refl

theorem insertChampion_written (c : Champion) : Written P R (R.insertChampion c).2 := by
  have run := R.insertChampion_instated c
  generalize R.insertChampion c = o at run
  cases run with
  | unknown | notNumber => exact .refl
  | stored => exact .single (.elsewhere R.edges _ R.attestations R.metrics)

theorem attest_written {name signature : String} {now : Instant}
    (meant : ∀ b ∈ (Operation.attest name signature now).puts R, P b) :
    Written P R (R.attest name signature now).2 := by
  unfold attest
  unfold Operation.puts at meant
  split
  · exact .refl
  · rename_i o found
    simp only [found] at meant
    have stored : Writes P R _ := .object (Text.Utf8.encode (o.statement now).compact) .proof
      (some name) (meant _ List.mem_cons_self)
    exact .head stored (insertAttestation_written ..)

theorem perform_written {op : Operation} (meant : ∀ b ∈ op.puts R, P b) :
    Written P R (R.perform op).2 := by
  cases op with
  | put bytes kind source => exact .single (.object bytes kind source (meant _ List.mem_cons_self))
  | register => exact register_written meant
  | insertGene g => exact insertGene_written g
  | recordEquivalence => exact recordEquivalence_written ..
  | recordMetric => exact recordMetric_written ..
  | insertChampion c => exact insertChampion_written c
  | recompute soul => exact .single (recompute_writes R soul)
  | forge => exact forge_written meant
  | insertAttestation => exact insertAttestation_written ..
  | attest => exact attest_written meant

/-- A history puts no other bytes in the store than `puts` tells. -/
theorem after_written {history : List Operation} (meant : ∀ b ∈ R.puts history, P b) :
    Written P R (R.after history) := by
  induction history generalizing R with
  | nil => exact .refl
  | cons op history ih =>
    have ⟨first, later⟩ := List.forall_mem_append.1 meant
    exact (perform_written first).trans (ih later)

end Registry

end GeneCalculus
