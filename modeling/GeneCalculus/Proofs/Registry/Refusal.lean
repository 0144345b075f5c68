import GeneCalculus.Proofs.Registry.History

/-!
Refused operations. What is wrong with the arguments of an operation is found before anything is
written, so an operation that is refused leaves all tables as they are, and the numbers of later
rows too. Other failures come from the database, from rows that cannot be read, or from a soul that
already stands for another form; by then some rows may have been written.
-/

namespace GeneCalculus.Registry

open Error (Category)

variable {α β : Type} {R S : Registry} {e : Error} {soul : SoulId} {g : Gene} {o : Outcome α}
  {early late : List Category} {op : Operation} {history : List Operation}

/-- The failures that an operation has for bad and for unknown arguments. -/
def Operation.refusals : Operation → List Category
  | .put .. => []
  | .register .. => [.validation, .provisionalSoul]
  | .insertGene _ => [.unknownObject, .soulCollision]
  | .recordEquivalence .. => [.invalidConfidence, .selfLoop, .unknownSoul]
  | .recordMetric .. => [.validation, .unknownSoul]
  | .insertChampion _ | .recompute _ => [.unknownSoul]
  | .forge .. => [.validation, .unknownSoul]
  | .insertAttestation .. => [.unknownOrganism, .unknownObject]
  | .attest .. => [.unknownOrganism]

/-- The failures that an operation may have after its arguments were accepted. -/
def Operation.mishaps : Operation → List Category
  | .register .. => [.soulCollision, .parse, .database]
  | .insertGene _ | .recordEquivalence .. | .recordMetric .. | .recompute _ => [.parse, .database]
  | .insertChampion _ => [.database]
  | .forge .. => [.parse]
  | .put .. | .insertAttestation .. | .attest .. => []

theorem Operation.not_mishap {c : Category} (refused : c ∈ op.refusals) : c ∉ op.mishaps := by
  cases op <;> revert c <;> simp [refusals, mishaps]

theorem Outcome.error_of_map {f : α → β} (failed : (o.map f).1 = .error e) : o.1 = .error e := by
  obtain ⟨answer, S⟩ := o
  cases answer with
  | error d =>
    cases failed
    rfl
  | ok a => cases failed

/-- An outcome is a success, an early failure that changes nothing, or a late one. -/
structure Outcome.Checked (R : Registry) (early late : List Category) (o : Outcome α) : Prop where
  fails : ∀ e, o.1 = .error e → e.category ∈ early ∧ o.2 = R ∨ e.category ∈ late

namespace Outcome.Checked

theorem ok {a : α} : Checked R early late (.ok a, S) := ⟨fun _ => nofun⟩

theorem refused (h : e.category ∈ early) : Checked R early late ((.error e, R) : Outcome α) := by
  constructor
  intro d same
  cases same
  exact .inl ⟨h, rfl⟩

theorem mishap (h : e.category ∈ late) : Checked R early late ((.error e, S) : Outcome α) := by
  constructor
  intro d same
  cases same
  exact .inr h

theorem map {f : α → β} (h : o.Checked R early late) : (o.map f).Checked R early late :=
  ⟨fun e failed => h.fails e (error_of_map failed)⟩

end Outcome.Checked

theorem requireSouls_error {souls : List SoulId} (h : R.requireSouls souls = .error e) :
    e.category = .unknownSoul := by
  induction souls with
  | nil => cases h
  | cons soul souls ih =>
    unfold requireSouls at h
    split at h
    · exact ih h
    · cases h
      rfl

/-- The champion of a known soul's group fails to be chosen if the rows are not read, and to be
stored in the database only. -/
theorem recompute_error (known : R.knows soul) (failed : (R.recompute soul).1 = .error e) :
    e.category ∈ [.parse, .database] := by
  have run := R.recompute_recomputed soul
  generalize R.recompute soul = o at run failed
  cases run with
  | unknown unknown => exact absurd known unknown
  | unread =>
    cases failed
    exact List.mem_cons_self
  | notNumber =>
    cases failed
    exact List.mem_cons_of_mem _ List.mem_cons_self
  | crowned => cases failed

theorem recompute_checked (soul : SoulId) :
    (R.recompute soul).Checked R [.unknownSoul] [.parse, .database] := by
  by_cases known : R.knows soul
  · exact ⟨fun e failed => .inr (recompute_error known failed)⟩
  · rw [recompute_of_unknown known]
    exact .refused List.mem_cons_self

theorem settle_error {answer : α} (known : S.knows soul)
    (failed : (S.settle soul answer).1 = .error e) : e.category ∈ [.parse, .database] :=
  recompute_error known (Outcome.error_of_map failed)

theorem settle_checked {answer : α} (known : S.knows soul) :
    (S.settle soul answer).Checked R early [.parse, .database] :=
  ⟨fun _ failed => .inr (settle_error known failed)⟩

/-- A gene is kept out because its object is not stored, or its soul stands for another form. -/
theorem checkGene_error (h : R.checkGene g = .error e) :
    R.object? g.cid = none ∧ e.category = .unknownObject ∨ e.category = .soulCollision := by
  unfold checkGene at h
  split at h
  · rename_i missing
    cases h
    exact .inl ⟨missing, rfl⟩
  · split at h
    · cases h
      exact .inr rfl
    · cases h

/-- A gene that is let in fails if it is not read, or in the database. -/
theorem insertGene_error (failed : (R.insertGene g).1 = .error e) :
    R.checkGene g = .error e ∧ (R.insertGene g).2 = R ∨ e.category ∈ [.parse, .database] := by
  have run := R.insertGene_inserted g
  generalize R.insertGene g = o at run failed ⊢
  cases run with
  | keptOut kept =>
    cases failed
    exact .inl ⟨kept, rfl⟩
  | notNumber =>
    cases failed
    exact .inr (List.mem_cons_of_mem _ List.mem_cons_self)
  | known => cases failed
  | knownUnread | enteredUnread =>
    cases failed
    exact .inr List.mem_cons_self
  | entered =>
    refine .inr (settle_error (knows_iff.2 ?_) failed)
    exact ⟨_, List.mem_append_right _ List.mem_cons_self, rfl⟩

theorem insertGene_checked (g : Gene) :
    (R.insertGene g).Checked R [.unknownObject, .soulCollision] [.parse, .database] := by
  constructor
  intro e failed
  rcases insertGene_error failed with ⟨kept, same⟩ | category
  · left
    rcases checkGene_error kept with ⟨-, unknown⟩ | collision
    · exact ⟨unknown ▸ List.mem_cons_self, same⟩
    · exact ⟨collision ▸ List.mem_cons_of_mem _ List.mem_cons_self, same⟩
  · exact .inr category

theorem register_checked (A : Arena) (root : NodeId) (source : String) (purity : Option Float) :
    (R.register A root source purity).Checked R [.validation, .provisionalSoul]
      [.soulCollision, .parse, .database] := by
  have run := R.register_registered A root source purity
  generalize R.register A root source purity = o at run
  cases run with
  | malformed => exact .refused List.mem_cons_self
  | provisional => exact .refused (List.mem_cons_of_mem _ List.mem_cons_self)
  | submitted =>
    apply Outcome.Checked.map
    constructor
    intro e failed
    right
    rcases insertGene_error failed with ⟨kept, -⟩ | category
    · -- the object was stored a moment ago, so only the soul can keep the gene out
      have stored := (R.withObjects_stored A root source).2
      rw [Option.isSome_iff_ne_none] at stored
      have collision := (checkGene_error kept).resolve_left fun missing => stored missing.1
      exact collision ▸ List.mem_cons_self
    · exact List.mem_cons_of_mem _ category

theorem checkEdge_error {a b : SoulId} {confidence : Float}
    (h : R.checkEdge a b confidence = .error e) :
    e.category ∈ [.invalidConfidence, .selfLoop, .unknownSoul] := by
  unfold checkEdge at h
  split at h
  · split at h
    · cases h
      exact List.mem_cons_of_mem _ List.mem_cons_self
    · dsimp only at h
      generalize ends : (if a < b then (a, b) else (b, a)) = pair at h
      cases required : R.requireSouls [pair.1, pair.2] with
      | ok done =>
        simp only [required] at h
        cases h
      | error d =>
        simp only [required] at h
        cases h
        rw [requireSouls_error required]
        decide
  · cases h
    exact List.mem_cons_self

theorem recordEquivalence_checked (a b : SoulId) (confidence : Float) :
    (R.recordEquivalence a b confidence).Checked R [.invalidConfidence, .selfLoop, .unknownSoul]
      [.parse, .database] := by
  unfold recordEquivalence
  split
  · rename_i failed
    exact .refused (checkEdge_error failed)
  · rename_i checked
    exact settle_checked (checkEdge_ok checked).1.1

theorem recordMetric_checked (soul : SoulId) (metric : String) (value : Float) :
    (R.recordMetric soul metric value).Checked R [.validation, .unknownSoul]
      [.parse, .database] := by
  unfold recordMetric
  split
  · split
    · rename_i failed
      exact .refused (requireSouls_error failed ▸ List.mem_cons_of_mem _ List.mem_cons_self)
    · rename_i required
      exact settle_checked (requireSouls_ok required soul List.mem_cons_self)
  · exact .refused List.mem_cons_self

theorem insertChampion_checked (c : Champion) :
    (R.insertChampion c).Checked R [.unknownSoul] [.database] := by
  have run := R.insertChampion_instated c
  generalize R.insertChampion c = o at run
  cases run with
  | unknown failed => exact .refused (requireSouls_error failed ▸ List.mem_cons_self)
  | notNumber => exact .mishap List.mem_cons_self
  | stored => exact .ok

theorem forge_checked (name : String) (souls : List SoulId) (targets : List String) :
    (R.forge name souls targets).Checked R [.validation, .unknownSoul] [.parse] := by
  have run := R.forge_forged name souls targets
  generalize R.forge name souls targets = o at run
  cases run with
  | refused refused =>
    have why := manifest_eq_error_iff.1 refused
    split at why
    · subst why
      exact .refused List.mem_cons_self
    · obtain ⟨soul, -, ⟨-, rfl⟩ | ⟨-, unread⟩, -⟩ := why
      · exact .refused (List.mem_cons_of_mem _ List.mem_cons_self)
      · exact .mishap ((SoulId.category_of_unread unread) ▸ List.mem_cons_self)
  | bundled => exact .ok

theorem insertAttestation_checked (organism : String) (cid : Cid) (signature : String) :
    (R.insertAttestation organism cid signature).Checked R [.unknownOrganism, .unknownObject] [] := by
  unfold insertAttestation
  split
  · exact .refused List.mem_cons_self
  · exact .refused (List.mem_cons_of_mem _ List.mem_cons_self)
  · exact .ok

theorem put_organism? (bytes : List UInt8) (kind : ObjectKind) (source : Option String)
    (name : String) : (R.put bytes kind source).2.organism? name = R.organism? name := by
  obtain ⟨objects, same⟩ := R.exists_put bytes kind source
  rw [same]
  rfl

/-- The statement that is attested to is stored before it is pointed to. -/
theorem attest_checked (name signature : String) (now : Instant) :
    (R.attest name signature now).Checked R [.unknownOrganism] [] := by
  unfold attest
  split
  · exact .refused List.mem_cons_self
  · rename_i organism found
    dsimp only
    generalize Text.Utf8.encode (organism.statement now).compact = statement
    have stored := put_stored (R := R) statement .proof (some name)
    have named : (R.put statement .proof (some name)).2.organism? name = some organism := by
      rw [put_organism?, found]
    obtain ⟨object, there⟩ := Option.isSome_iff_exists.1 stored
    simp only [insertAttestation, named, there]
    exact .ok

/-- Every failure of an operation is a refusal, which changes nothing, or a mishap. -/
theorem perform_checked (R : Registry) (op : Operation) :
    (R.perform op).Checked R op.refusals op.mishaps := by
  cases op with
  | put => exact .ok
  | register => exact (register_checked ..).map
  | insertGene g => exact (insertGene_checked g).map
  | recordEquivalence => exact (recordEquivalence_checked ..).map
  | recordMetric => exact (recordMetric_checked ..).map
  | insertChampion c => exact insertChampion_checked c
  | recompute soul => exact (recompute_checked soul).map
  | forge => exact (forge_checked ..).map
  | insertAttestation => exact (insertAttestation_checked ..).map
  | attest => exact (attest_checked ..).map

/-- Whether an operation is refused. -/
def refuses (R : Registry) (op : Operation) : Bool :=
  match (R.perform op).1 with
  | .error e => e.category ∈ op.refusals
  | .ok _ => false

theorem refuses_iff :
    R.refuses op ↔ ∃ e, (R.perform op).1 = .error e ∧ e.category ∈ op.refusals := by
  unfold refuses
  split
  · rename_i e failed
    rw [failed, decide_eq_true_iff]
    constructor
    · exact fun refused => ⟨e, rfl, refused⟩
    · exact fun ⟨_, same, refused⟩ => Except.error.inj same ▸ refused
  · rename_i done
    rw [done]
    exact ⟨nofun, fun ⟨_, same, _⟩ => nomatch same⟩

/-- A refused operation leaves the registry as it is. -/
theorem perform_of_refuses (refused : R.refuses op) : (R.perform op).2 = R := by
  obtain ⟨e, failed, category⟩ := refuses_iff.1 refused
  rcases (R.perform_checked op).fails e failed with ⟨-, same⟩ | late
  · exact same
  · exact absurd late (Operation.not_mishap category)

theorem after_of_refuses (refused : R.refuses op) : R.after (op :: history) = R.after history :=
  congrArg (after · history) (perform_of_refuses refused)

/-- The number under which an operation records a row. -/
def Operation.number? (R : Registry) : Operation → Option Nat
  | .recordEquivalence a b confidence =>
    (R.recordEquivalence a b confidence).1.toOption.map (·.id)
  | .recordMetric soul metric value => (R.recordMetric soul metric value).1.toOption.map (·.id)
  | .put .. | .register .. | .insertGene _ | .insertChampion _ | .recompute _ | .forge ..
  | .insertAttestation .. | .attest .. => none

/-- The numbers that a history is answered with. -/
def numbers (R : Registry) : List Operation → List Nat
  | [] => []
  | op :: history => (op.number? R).toList ++ (R.perform op).2.numbers history

/-- A history without the operations that are refused in its course. -/
def granted (R : Registry) : List Operation → List Operation
  | [] => []
  | op :: history =>
    if R.refuses op then R.granted history else op :: (R.perform op).2.granted history

theorem number?_of_error (failed : (R.perform op).1 = .error e) : op.number? R = none := by
  cases op with
  | recordEquivalence a b confidence =>
    simp only [Operation.number?, Outcome.error_of_map failed]
    rfl
  | recordMetric soul metric value =>
    simp only [Operation.number?, Outcome.error_of_map failed]
    rfl
  | _ => rfl

theorem numbers_of_refuses (refused : R.refuses op) :
    R.numbers (op :: history) = R.numbers history := by
  obtain ⟨e, failed, -⟩ := refuses_iff.1 refused
  rw [numbers, number?_of_error failed, perform_of_refuses refused]
  rfl

theorem after_granted (history : List Operation) :
    R.after (R.granted history) = R.after history ∧
      R.numbers (R.granted history) = R.numbers history := by
  induction history generalizing R with
  | nil => exact ⟨rfl, rfl⟩
  | cons op history ih =>
    unfold granted
    split
    · rename_i refused
      rw [numbers_of_refuses refused, after_of_refuses refused]
      exact ih
    · have ⟨state, numbers⟩ := ih (R := (R.perform op).2)
      exact ⟨state, congrArg ((op.number? R).toList ++ ·) numbers⟩

/-- An operation that fails for a bad or an unknown argument leaves the registry as it is, and what
comes later is as if it had not been called, the numbers that are given out included. So a history
can be told without the operations that are refused in its course. -/
theorem refused_leaves (R : Registry) :
    (∀ op e, (R.perform op).1 = .error e → e.category ∈ op.refusals →
      (R.perform op).2 = R ∧
        ∀ later, R.after (op :: later) = R.after later ∧
          R.numbers (op :: later) = R.numbers later) ∧
    ∀ history, R.after (R.granted history) = R.after history ∧
      R.numbers (R.granted history) = R.numbers history := by
  refine ⟨fun op e failed category => ?_, fun history => after_granted history⟩
  have refused := refuses_iff.2 ⟨e, failed, category⟩
  exact ⟨perform_of_refuses refused,
    fun later => ⟨after_of_refuses refused, numbers_of_refuses refused⟩⟩

/-- Two souls, and then edges: from a soul to itself, to an unknown one, and between the two. -/
def joining : List Operation := [
  .put [] .ir none,
  .insertGene ⟨⟨"λ0000000a"⟩, "first", .ofBytes [], "", 1.0, 1.0, 0⟩,
  .insertGene ⟨⟨"λ0000000b"⟩, "first", .ofBytes [], "", 1.0, 1.0, 0⟩,
  .recordEquivalence ⟨"λ0000000a"⟩ ⟨"λ0000000a"⟩ 0.5,
  .recordEquivalence ⟨"λ0000000a"⟩ ⟨"λ0000000c"⟩ 0.5,
  .recordEquivalence ⟨"λ0000000b"⟩ ⟨"λ0000000a"⟩ 0.5]

/-- Only the last edge comes in, and it has the first number. -/
theorem refused_leaves_joining :
    let R := empty ⟨0.5, Objective.standard, .standard⟩
    let S := R.after (joining.take 3)
    (S.perform (.recordEquivalence ⟨"λ0000000a"⟩ ⟨"λ0000000a"⟩ 0.5)).2 = S ∧
      R.numbers (R.granted joining) = [1] ∧ R.after (R.granted joining) = R.after joining := by
  intro R S
  have facts : S.refuses (.recordEquivalence ⟨"λ0000000a"⟩ ⟨"λ0000000a"⟩ 0.5) ∧ R.numbers joining = [1] := by
    decide +kernel
  obtain ⟨refused, numbers⟩ := facts
  obtain ⟨e, failed, category⟩ := refuses_iff.1 refused
  have ⟨same, later⟩ := (refused_leaves R).2 joining
  rw [same, later, numbers]
  exact ⟨((refused_leaves S).1 _ e failed category).1, rfl, rfl⟩

end GeneCalculus.Registry
