import GeneCalculus.Proofs.Registry.Insertion
import GeneCalculus.Registry.Organisms
import GeneCalculus.Registry.Recording

/-!
Histories of a registry: operations that may change its tables, one after the other, whatever each
of them answers. All other operations only read.

Genes, edges and measurements come in alike: the row is checked and appended, and then the champion
of its group is chosen anew.
-/

namespace GeneCalculus.Registry

variable {R : Registry}

/-- An operation that may change the tables. -/
inductive Operation
  | put (bytes : List UInt8) (kind : ObjectKind) (source : Option String)
  | register (A : Arena) (root : NodeId) (source : String) (purity : Option Float)
  | insertGene (g : Gene)
  | recordEquivalence (a b : SoulId) (confidence : Float)
  | recordMetric (soul : SoulId) (metric : String) (value : Float)
  | insertChampion (c : Champion)
  | recompute (soul : SoulId)
  | forge (name : String) (souls : List SoulId) (targets : List String)
  | insertAttestation (organism : String) (cid : Cid) (signature : String)
  | attest (name signature : String) (now : Instant)

/-- Carries out an operation; of its answer only an error is kept. -/
def perform (R : Registry) : Operation → Outcome Unit
  | .put bytes kind source => (.ok (), (R.put bytes kind source).2)
  | .register A root source purity => (R.register A root source purity).map fun _ => ()
  | .insertGene g => (R.insertGene g).map fun _ => ()
  | .recordEquivalence a b confidence => (R.recordEquivalence a b confidence).map fun _ => ()
  | .recordMetric soul metric value => (R.recordMetric soul metric value).map fun _ => ()
  | .insertChampion c => R.insertChampion c
  | .recompute soul => (R.recompute soul).map fun _ => ()
  | .forge name souls targets => (R.forge name souls targets).map fun _ => ()
  | .insertAttestation organism cid signature =>
    (R.insertAttestation organism cid signature).map fun _ => ()
  | .attest name signature now => (R.attest name signature now).map fun _ => ()

/-- The registry after some operations. -/
def after (R : Registry) (history : List Operation) : Registry :=
  history.foldl (fun R op => (R.perform op).2) R

/-- A row comes in that champions depend on, and the soul whose champion may be another now. -/
inductive Entry (R : Registry) : SoulId → Registry → Prop
  | gene (g : Gene) (stored : (R.object? g.cid).isSome) :
      Entry R g.soul { R with genes := R.genes ++ [g] }
  | edge (e : Edge) (known : R.knows e.low ∧ R.knows e.high) (ordered : e.low < e.high)
      (confident : 0.0 < e.confidence ∧ e.confidence ≤ 1.0) :
      Entry R e.low { R with edges := R.edges ++ [e] }
  | metric (m : Metric) (known : R.knows m.soul) :
      Entry R m.soul { R with metrics := R.metrics ++ [m] }

/-- The outcome of an operation that changes nothing, or settles after an entry. An entry that cannot
be read is not settled. -/
inductive Enters {α : Type} (R : Registry) : Outcome α → Prop
  | unchanged {answer : Except Error α} : Enters R (answer, R)
  | settles {soul : SoulId} {S : Registry} {answer : α} (entry : Entry R soul S) :
      Enters R (S.settle soul answer)
  | unread {soul : SoulId} {S : Registry} {cause : IdentifierError} (entry : Entry R soul S)
      (ill : ¬soul.WellFormed) : Enters R (.error (.identifier cause), S)

theorem requireSouls_ok {souls : List SoulId} {done : Unit} (h : R.requireSouls souls = .ok done) :
    ∀ soul ∈ souls, R.knows soul := by
  induction souls with
  | nil => exact fun _ => nofun
  | cons soul souls ih =>
    unfold requireSouls at h
    split at h
    · rename_i known
      exact List.forall_mem_cons.2 ⟨known, ih h⟩
    · cases h

theorem checkGene_ok {g : Gene} {done : Unit} (h : R.checkGene g = .ok done) :
    (R.object? g.cid).isSome := by
  unfold checkGene at h
  split at h
  · cases h
  · rename_i stored
    rw [stored]
    rfl

theorem insertGene_enters (g : Gene) : R.Enters (R.insertGene g) := by
  have run := R.insertGene_inserted g
  generalize R.insertGene g = o at run
  cases run with
  | keptOut | notNumber | known | knownUnread => exact .unchanged
  | @entered complexity purity checked =>
    exact .settles (.gene { g with complexity, purity } (checkGene_ok checked))
  | @enteredUnread complexity purity _ checked _ ill =>
    exact .unread (.gene { g with complexity, purity } (checkGene_ok checked)) ill

theorem checkEdge_ok {a b low high : SoulId} {confidence : Float}
    (h : R.checkEdge a b confidence = .ok (low, high)) :
    (R.knows low ∧ R.knows high) ∧ low < high ∧ 0.0 < confidence ∧ confidence ≤ 1.0 := by
  unfold checkEdge at h
  split at h
  · rename_i confident
    split at h
    · cases h
    · rename_i differ
      generalize ends : (if a < b then (a, b) else (b, a)) = pair at h
      have ordered : pair.1 < pair.2 := by
        rw [← ends]
        split
        · assumption
        · rename_i notLess
          rcases Std.lt_trichotomy a b with less | same | more
          · exact absurd less notLess
          · exact absurd same differ
          · exact more
      cases required : R.requireSouls [pair.1, pair.2] with
      | error e =>
        simp only [required] at h
        cases h
      | ok done =>
        simp only [required] at h
        cases h
        have known := requireSouls_ok required
        exact ⟨⟨known _ (by simp), known _ (by simp)⟩, ordered, confident⟩
  · cases h

theorem recordEquivalence_enters (a b : SoulId) (confidence : Float) :
    R.Enters (R.recordEquivalence a b confidence) := by
  unfold recordEquivalence
  split
  · exact .unchanged
  · rename_i low high checked
    have ⟨known, ordered, confident⟩ := checkEdge_ok checked
    have entry := Entry.edge ⟨R.edges.length + 1, low, high, confidence⟩ known ordered confident
    exact .settles entry

theorem recordMetric_enters (soul : SoulId) (metric : String) (value : Float) :
    R.Enters (R.recordMetric soul metric value) := by
  unfold recordMetric
  split
  · split
    · exact .unchanged
    · rename_i required
      have known := requireSouls_ok required soul List.mem_cons_self
      have entry := Entry.metric ⟨R.metrics.length + 1, soul, metric, value + 0.0⟩ known
      exact .settles entry
  · exact .unchanged

end GeneCalculus.Registry
