import GeneCalculus.Proofs.Registry.Integrity
import GeneCalculus.Proofs.Registry.Manifest

/-!
Every history keeps the registry sound and its rows in place. Each operation, whether it succeeds or
fails, is a chain of elementary changes; one that writes to several tables makes one change for
each.
-/

namespace GeneCalculus.Registry

variable {R S : Registry} {soul : SoulId}

theorem put_changes (bytes : List UInt8) (kind : ObjectKind) (source : Option String) :
    Changes R (R.put bytes kind source).2 := by
  unfold put
  dsimp only
  split
  · exact .refl
  · exact .single (.object _)

/-- What was put is there. -/
theorem put_stored (bytes : List UInt8) (kind : ObjectKind) (source : Option String) :
    ((R.put bytes kind source).2.object? (R.put bytes kind source).1).isSome := by
  unfold put
  dsimp only
  split
  · rename_i stored
    rw [stored]
    rfl
  · apply List.find?_isSome.2
    exact ⟨_, List.mem_append_right _ List.mem_cons_self, decide_eq_true rfl⟩

/-- A champion is of a known soul, and stands for a group of known souls. -/
theorem Recomputed.changes {o : Outcome (Option Champion)} (run : R.Recomputed soul o)
    (sound : R.Sound) : Changes R o.2 := by
  cases run with
  | unknown | unread | notNumber => exact .refl
  | crowned known _ found =>
    apply Relation.ReflTransGen.single
    apply Change.champions
    intro c hc
    rcases mem_of_mem_upsert hc with rfl | hc
    · have keyKnown : R.knows (R.keyOf soul) :=
        (mem_groupOf.1 keyOf_mem).known (fun e he => (sound.edges e he).1) known
      exact .inr ⟨keyKnown, (knows_of_champion? found).2⟩
    · exact .inl (List.mem_of_mem_filter hc)

theorem recompute_changes (sound : R.Sound) (soul : SoulId) : Changes R (R.recompute soul).2 :=
  (R.recompute_recomputed soul).changes sound

theorem Enters.changes {α : Type} {o : Outcome α} (h : R.Enters o) (sound : R.Sound) :
    Changes R o.2 := by
  cases h with
  | unchanged => exact .refl
  | @settles soul S _ entry =>
    have first : Change R S := .entry entry
    exact .head first (recompute_changes (first.sound sound) soul)
  | unread entry => exact .single (.entry entry)

theorem insertChampion_changes (c : Champion) : Changes R (R.insertChampion c).2 := by
  have run := R.insertChampion_instated c
  generalize R.insertChampion c = o at run
  cases run with
  | unknown | notNumber => exact .refl
  | stored required =>
    have known := requireSouls_ok required
    apply Relation.ReflTransGen.single
    apply Change.champions
    intro d hd
    rcases mem_of_mem_upsert hd with rfl | hd
    · exact .inr ⟨known _ (by simp), known _ (by simp)⟩
    · exact .inl hd

theorem withObjects_changes (R : Registry) (A : Arena) (root : NodeId) (source : String) :
    Changes R (R.withObjects A root source) := (put_changes ..).trans (put_changes ..)

/-- Both objects of a registration are stored. -/
theorem withObjects_stored (R : Registry) (A : Arena) (root : NodeId) (source : String) :
    ((R.withObjects A root source).object? (.ofBytes (A.snapshot root))).isSome ∧
      ((R.withObjects A root source).object?
        (.ofBytes (A.canonicalize R.policy.limits root).1.bytes)).isSome := by
  have first := put_stored (R := R) (A.snapshot root) .source (some source)
  have second := put_stored (R := (R.put (A.snapshot root) .source (some source)).2)
    (A.canonicalize R.policy.limits root).1.bytes .ir (some source)
  rw [put_cid] at first second
  -- the second object does not take the first away
  exact ⟨(Changes.extends (put_changes ..)).stored first, second⟩

theorem register_changes (sound : R.Sound) (A : Arena) (root : NodeId) (source : String)
    (purity : Option Float) : Changes R (R.register A root source purity).2 := by
  have run := R.register_registered A root source purity
  generalize R.register A root source purity = o at run
  cases run with
  | malformed | provisional => exact .refl
  | submitted =>
    have first := R.withObjects_changes A root source
    exact first.trans ((insertGene_enters _).changes (Changes.sound first sound))

theorem forge_changes (name : String) (souls : List SoulId) (targets : List String) :
    Changes R (R.forge name souls targets).2 := by
  have run := R.forge_forged name souls targets
  generalize R.forge name souls targets = o at run
  cases run with
  | refused => exact .refl
  | @bundled m listed =>
    have first := put_changes (R := R) m.bytes .organism (some m.name)
    have stored := put_stored (R := R) m.bytes .organism (some m.name)
    rw [put_cid] at stored
    have known : ∀ soul ∈ m.organism.souls,
        (R.put m.bytes .organism (some m.name)).2.knows soul := by
      intro soul hs
      obtain ⟨entry, he, rfl⟩ := List.mem_map.1 hs
      exact first.extends.knows ((manifest_ok listed).2.2.2 entry he).1.1
    exact first.tail (.organism m.organism stored known)

theorem insertAttestation_changes (organism : String) (cid : Cid) (signature : String) :
    Changes R (R.insertAttestation organism cid signature).2 := by
  unfold insertAttestation
  split
  · exact .refl
  · exact .refl
  · rename_i named stored
    apply Relation.ReflTransGen.single
    apply Change.attestation ⟨organism, cid, signature⟩
    · rw [named]
      rfl
    · rw [stored]
      rfl

theorem attest_changes (name signature : String) (now : Instant) :
    Changes R (R.attest name signature now).2 := by
  unfold attest
  split
  · exact .refl
  · exact (put_changes ..).trans (insertAttestation_changes ..)

/-- Every operation on a sound registry is a chain of changes. -/
theorem perform_changes (h : R.Sound) (op : Operation) : Changes R (R.perform op).2 := by
  cases op with
  | put => exact put_changes ..
  | register => exact register_changes h ..
  | insertGene => exact (insertGene_enters _).changes h
  | recordEquivalence => exact (recordEquivalence_enters ..).changes h
  | recordMetric => exact (recordMetric_enters ..).changes h
  | insertChampion => exact insertChampion_changes _
  | recompute => exact recompute_changes h _
  | forge => exact forge_changes ..
  | insertAttestation => exact insertAttestation_changes ..
  | attest => exact attest_changes ..

theorem after_changes (h : R.Sound) (history : List Operation) : Changes R (R.after history) := by
  induction history generalizing R with
  | nil => exact .refl
  | cons op history ih =>
    have first := perform_changes h op
    exact first.trans (ih (Changes.sound first h))

theorem sound_after (policy : Policy) (history : List Operation) :
    ((empty policy).after history).Sound :=
  (after_changes (sound_empty policy) history).sound (sound_empty policy)

/-- After any history the references between the tables hold and the edges are in order, and
whatever happens next, each row of the history stays as it is and where it is. -/
theorem history_sound (policy : Policy) (history : List Operation) :
    ((empty policy).after history).Sound ∧
      ∀ later, ((empty policy).after history).Extends (((empty policy).after history).after later) := by
  have sound := sound_after policy history
  exact ⟨sound, fun later => (after_changes sound later).extends⟩

end GeneCalculus.Registry
