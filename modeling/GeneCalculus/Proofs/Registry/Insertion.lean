import GeneCalculus.Proofs.Registry.Crown
import GeneCalculus.Registry.Genes

/-!
What the insertion of a gene or of a champion can come to, and what a registration can. A
registration that is not refused puts two objects in the store, the expression as it is submitted
and its canonical form, and then inserts the gene of the form.
-/

namespace GeneCalculus.Registry

variable {R : Registry} {A : Arena} {root : NodeId} {soul : SoulId} {source : String}
  {purity : Option Float} {g h : Gene}

theorem of_gene? (found : R.gene? soul source = some h) :
    h ∈ R.genes ∧ h.soul = soul ∧ h.source = source :=
  ⟨List.mem_of_find?_eq_some found, by simpa using List.find?_some found⟩

/-- All that the insertion of a gene can come to. It is kept out, it has no numbers, there is a gene
for its soul and source, or it enters the table and the champion of its group is chosen anew. The
row is read before it is answered, so an ill-formed soul has no answer, and a gene that enters with
one leaves the champions as they are. -/
inductive Inserted (R : Registry) (g : Gene) : Outcome Gene → Prop
  | keptOut {e : Error} (kept : R.checkGene g = .error e) : Inserted R g (.error e, R)
  | notNumber (checked : R.checkGene g = .ok ())
      (noNumber : tabled? g.complexity = none ∨ tabled? g.purity = none) :
      Inserted R g (.error (.notNumber .gene), R)
  | known {stored : Gene} (checked : R.checkGene g = .ok ())
      (numbers : (tabled? g.complexity).isSome ∧ (tabled? g.purity).isSome)
      (found : R.gene? g.soul g.source = some stored) (formed : g.soul.WellFormed) :
      Inserted R g (.ok stored, R)
  | knownUnread {cause : IdentifierError} (there : (R.gene? g.soul g.source).isSome)
      (ill : ¬g.soul.WellFormed) : Inserted R g (.error (.identifier cause), R)
  | entered {complexity purity : Float} (checked : R.checkGene g = .ok ())
      (cost : tabled? g.complexity = some complexity) (pure : tabled? g.purity = some purity)
      (fresh : R.gene? g.soul g.source = none) (formed : g.soul.WellFormed) :
      Inserted R g ({ R with genes := R.genes ++ [{ g with complexity, purity }] }.settle g.soul
        { g with complexity, purity })
  | enteredUnread {complexity purity : Float} {cause : IdentifierError}
      (checked : R.checkGene g = .ok ()) (fresh : R.gene? g.soul g.source = none)
      (ill : ¬g.soul.WellFormed) :
      Inserted R g (.error (.identifier cause),
        { R with genes := R.genes ++ [{ g with complexity, purity }] })

/-- A gene that passes all checks is the answer once it is read. -/
theorem insertGene_of_numbers {complexity purity : Float} (checked : R.checkGene g = .ok ())
    (cost : tabled? g.complexity = some complexity) (pure : tabled? g.purity = some purity) :
    R.Inserted g (R.insertGene g) := by
  unfold insertGene
  simp only [checked, cost, pure]
  cases found : R.gene? g.soul g.source with
  | some stored =>
    have soul := (of_gene? found).2.1
    have numbers := And.intro (Option.isSome_of_eq_some cost) (Option.isSome_of_eq_some pure)
    by_cases formed : g.soul.WellFormed
    · have read : stored.read = .ok stored := Gene.rereads.good _ (soul ▸ formed)
      simp only [read]
      exact .known checked numbers found formed
    · obtain ⟨cause, read⟩ := Gene.rereads.bad stored (soul ▸ formed)
      simp only [read]
      exact .knownUnread (Option.isSome_of_eq_some found) formed
  | none =>
    by_cases formed : g.soul.WellFormed
    · have read := Gene.rereads.good { g with complexity, purity } formed
      simp only [read]
      exact .entered checked cost pure found formed
    · obtain ⟨cause, read⟩ := Gene.rereads.bad { g with complexity, purity } formed
      simp only [read]
      exact .enteredUnread checked found formed

theorem insertGene_inserted (R : Registry) (g : Gene) : R.Inserted g (R.insertGene g) := by
  cases checked : R.checkGene g with
  | error e =>
    rw [insertGene, checked]
    exact .keptOut checked
  | ok =>
    cases cost : tabled? g.complexity with
    | none =>
      simp only [insertGene, checked, cost]
      exact .notNumber checked (.inl cost)
    | some complexity =>
      cases pure : tabled? g.purity with
      | none =>
        simp only [insertGene, checked, cost, pure]
        exact .notNumber checked (.inr pure)
      | some purity => exact insertGene_of_numbers checked cost pure

/-- The first gene enters the table, if its object is there and it has numbers. -/
theorem insertGene_first {complexity purity : Float} (first : R.genes = [])
    (stored : (R.object? g.cid).isSome) (formed : g.soul.WellFormed)
    (cost : tabled? g.complexity = some complexity) (pure : tabled? g.purity = some purity) :
    R.insertGene g = { R with genes := R.genes ++ [{ g with complexity, purity }] }.settle g.soul
      { g with complexity, purity } := by
  obtain ⟨object, stored⟩ := Option.isSome_iff_exists.1 stored
  have checked : R.checkGene g = .ok () := by simp [checkGene, stored, first]
  have fresh : R.gene? g.soul g.source = none := by simp [gene?, first]
  have read := Gene.rereads.good { g with complexity, purity } formed
  simp only [insertGene, checked, cost, pure, fresh, read]

/-- All that the insertion of a champion can come to. It is of unknown souls, its score is no number,
or it takes the place of the row with its key. -/
inductive Instated (R : Registry) (c : Champion) : Outcome Unit → Prop
  | unknown {e : Error} (refused : R.requireSouls [c.canonical, c.soul] = .error e) :
      Instated R c (.error e, R)
  | notNumber (known : R.requireSouls [c.canonical, c.soul] = .ok ())
      (noNumber : tabled? c.score = none) : Instated R c (.error (.notNumber .champion), R)
  | stored {score : Float} (known : R.requireSouls [c.canonical, c.soul] = .ok ())
      (number : tabled? c.score = some score) :
      Instated R c (.ok (), { R with
        champions := upsert (·.canonical) { c with score } R.champions })

theorem insertChampion_instated (R : Registry) (c : Champion) :
    R.Instated c (R.insertChampion c) := by
  unfold insertChampion
  cases required : R.requireSouls [c.canonical, c.soul] with
  | error e => exact .unknown required
  | ok =>
    unfold storeChampion
    cases number : tabled? c.score with
    | none => exact .notNumber required number
    | some score => exact .stored required number

/-- The gene as which a canonical form is submitted. -/
def submission (c : Canonical) (A : Arena) (source : String) (purity : Option Float) : Gene where
  soul := c.soul.id
  source
  cid := .ofBytes c.bytes
  ir := A.print c.root
  complexity := (UInt64.ofNat c.finalCost).toFloat
  purity := if usesHost A c.root then purity.getD 0.0 else 1.0
  size := c.bytes.length

theorem isNaN_submission {c : Canonical} :
    (submission c A source purity).purity.isNaN ↔
      usesHost A c.root ∧ (purity.getD 0.0).isNaN := by
  unfold submission
  split
  · rename_i uses
    exact (and_iff_right uses).symm
  · rename_i pure
    have one : ¬(1.0 : Float).isNaN := by decide +kernel
    exact ⟨fun h => absurd h one, fun h => absurd h.1 pure⟩

/-- Only the table of objects is written. -/
theorem exists_put (R : Registry) (bytes : List UInt8) (kind : ObjectKind)
    (source : Option String) : ∃ objects, (R.put bytes kind source).2 = { R with objects } := by
  unfold put
  dsimp only
  split
  · exact ⟨R.objects, rfl⟩
  · exact ⟨_, rfl⟩

theorem put_cid (bytes : List UInt8) (kind : ObjectKind) (source : Option String) :
    (R.put bytes kind source).1 = .ofBytes bytes := by
  unfold put
  dsimp only
  split <;> rfl

/-- The registry with the objects of a registration. -/
def withObjects (R : Registry) (A : Arena) (root : NodeId) (source : String) : Registry :=
  ((R.put (A.snapshot root) .source (some source)).2.put
    (A.canonicalize R.policy.limits root).1.bytes .ir (some source)).2

/-- What a registration that is not refused does. -/
def submit (R : Registry) (A : Arena) (root : NodeId) (source : String) (purity : Option Float) :
    Outcome Registration :=
  let c := A.canonicalize R.policy.limits root
  ((R.withObjects A root source).insertGene (submission c.1 c.2 source purity)).map fun g =>
    ⟨g, .ofBytes (A.snapshot root), c.1.report⟩

theorem register_eq (valid : A.validateClosed root = .ok ())
    (final : ¬(A.canonicalize R.policy.limits root).1.soul.provisional) :
    R.register A root source purity = R.submit A root source purity := by
  simp only [register, valid, if_neg final, put_cid, submission, withObjects, submit]

/-- All that a registration can come to. An expression that is not closed is refused, and so is one
whose soul is not final. -/
inductive Registered (R : Registry) (A : Arena) (root : NodeId) (source : String)
    (purity : Option Float) : Outcome Registration → Prop
  | malformed {fault : Malformed} (invalid : A.validateClosed root = .error fault) :
      Registered R A root source purity (.error (.malformed fault), R)
  | provisional (valid : A.validateClosed root = .ok ())
      (provisional : (A.canonicalize R.policy.limits root).1.soul.provisional) :
      Registered R A root source purity
        (.error (.provisionalSoul (A.canonicalize R.policy.limits root).1.soul.id), R)
  | submitted (valid : A.validateClosed root = .ok ())
      (final : ¬(A.canonicalize R.policy.limits root).1.soul.provisional) :
      Registered R A root source purity (R.submit A root source purity)

theorem register_registered (R : Registry) (A : Arena) (root : NodeId) (source : String)
    (purity : Option Float) :
    R.Registered A root source purity (R.register A root source purity) := by
  cases valid : A.validateClosed root with
  | error fault =>
    simp only [register, valid]
    exact .malformed valid
  | ok =>
    by_cases final : (A.canonicalize R.policy.limits root).1.soul.provisional
    · simp only [register, valid, if_pos final]
      exact .provisional valid final
    · rw [register_eq valid final]
      exact .submitted valid final

end GeneCalculus.Registry
