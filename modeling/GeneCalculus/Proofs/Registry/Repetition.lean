import GeneCalculus.Proofs.Canonical.Finality
import GeneCalculus.Proofs.Registry.Meaning
import GeneCalculus.Proofs.Sharing.Adoption
import GeneCalculus.Proofs.Sharing.Closure

/-!
Repeated registrations. What a registration leaves in the tables stays there, so when the expression
is registered again from the same source, however much later, its objects are stored already, its
gene is found, and nothing is written. Only a purity that is no number fails, as the database looks
at the row before it looks for the one that is there.
-/

namespace GeneCalculus.Registry

variable {R S : Registry} {A : Arena} {root : NodeId} {limits : Limits} {source : String}
  {purity : Option Float} {r : Registration} {g h : Gene} {bytes : List UInt8}
  {P : List UInt8 → Prop}

theorem insertGene_answer (done : R.insertGene g = (.ok h, S)) :
    h.source = g.source ∧ (tabled? g.complexity).isSome := by
  have run := R.insertGene_inserted g
  generalize R.insertGene g = o at run done
  cases run with
  | keptOut | notNumber | knownUnread | enteredUnread => cases done
  | known _ numbers found =>
    cases done
    exact ⟨(of_gene? found).2.2, numbers.1⟩
  | entered _ cost =>
    obtain ⟨rfl, -⟩ := settle_ok done
    exact ⟨rfl, Option.isSome_of_eq_some cost⟩

/-- The registry has what a registration of the expression leaves, and `r` was its answer. -/
structure Has (R : Registry) (limits : Limits) (A : Arena) (root : NodeId) (source : String)
    (r : Registration) : Prop where
  decided : R.policy.limits = limits
  valid : A.validateClosed root = .ok ()
  final : ¬(A.canonicalize limits root).1.soul.provisional
  snapshot : (R.object? (.ofBytes (A.snapshot root))).isSome
  form : (R.object? (.ofBytes (A.canonicalize limits root).1.bytes)).isSome
  gene : r.gene ∈ R.genes
  named : r.gene.soul = (A.canonicalize limits root).1.soul.id ∧ r.gene.source = source
  cid : r.gene.cid = .ofBytes (A.canonicalize limits root).1.bytes
  cost : (tabled? (UInt64.ofNat (A.canonicalize limits root).1.finalCost).toFloat).isSome
  answer : r = ⟨r.gene, .ofBytes (A.snapshot root), (A.canonicalize limits root).1.report⟩

/-- What a registration leaves stays. -/
theorem Has.extends (h : R.Has limits A root source r) (more : R.Extends S) :
    S.Has limits A root source r :=
  { h with
    decided := (congrArg Policy.limits more.policy).trans h.decided
    snapshot := more.stored h.snapshot
    form := more.stored h.form
    gene := more.genes.subset h.gene }

/-- A registration leaves what it is to leave. -/
theorem register_has (sound : R.Sound) (done : R.register A root source purity = (.ok r, S)) :
    S.Has R.policy.limits A root source r := by
  have run := R.register_registered A root source purity
  generalize R.register A root source purity = o at run done
  cases run with
  | malformed | provisional => cases done
  | submitted valid final =>
    obtain ⟨gene, inserted, rfl⟩ := Outcome.exists_of_map_ok done
    have changes := R.withObjects_changes A root source
    have ⟨snapshot, form⟩ := R.withObjects_stored A root source
    have entered := (insertGene_enters (submission (A.canonicalize R.policy.limits root).1
      (A.canonicalize R.policy.limits root).2 source purity)).changes (changes.sound sound)
    rw [inserted] at entered
    have more := Changes.extends entered
    have policy := more.policy.trans changes.extends.policy
    have ⟨there, soul, cid⟩ := insertGene_ok inserted
    have ⟨origin, cost⟩ := insertGene_answer inserted
    exact ⟨congrArg Policy.limits policy, valid, final, more.stored snapshot, more.stored form,
      there, ⟨soul, origin⟩, cid, cost, rfl⟩

/-- Bytes that are stored are not stored again. -/
theorem put_of_stored (stored : (R.object? (.ofBytes bytes)).isSome) (kind : ObjectKind)
    (source : Option String) : R.put bytes kind source = (.ofBytes bytes, R) := by
  obtain ⟨object, found⟩ := Option.isSome_iff_exists.1 stored
  simp only [put, found]

/-- A gene that is there for its soul and source is the answer, and nothing is written. -/
theorem Coherent.insertGene (coherent : R.Coherent P) (there : h ∈ R.genes)
    (named : h.soul = g.soul ∧ h.source = g.source) (cid : h.cid = g.cid)
    (stored : (R.object? g.cid).isSome) (formed : g.soul.WellFormed)
    (cost : (tabled? g.complexity).isSome) :
    R.insertGene g = (if g.purity.isNaN then .error (.notNumber .gene) else .ok h, R) := by
  obtain ⟨object, stored⟩ := Option.isSome_iff_exists.1 stored
  obtain ⟨complexity, cost⟩ := Option.isSome_iff_exists.1 cost
  have agreed : (R.genes.find? fun other => other.soul = g.soul ∧ other.cid ≠ g.cid) = none := by
    apply List.find?_eq_none.2
    intro other mem differs
    have ⟨soul, apart⟩ := of_decide_eq_true differs
    exact apart ((coherent.forms other mem h there (soul.trans named.1.symm)).trans cid)
  have checked : R.checkGene g = .ok () := by
    simp only [checkGene, stored, agreed]
  have found : R.gene? g.soul g.source = some h := by
    have unique := find?_key coherent.sources there
    simp only [Prod.mk.injEq] at unique
    rw [gene?, ← named.1, ← named.2]
    exact unique
  have read : h.read = .ok h := Gene.rereads.good h (named.1 ▸ formed)
  unfold Registry.insertGene
  simp only [checked, cost, found, read]
  -- the numbers are looked at before the row that was found is answered
  cases noNumber : g.purity.isNaN with
  | true =>
    rw [tabled?, if_pos noNumber]
    rfl
  | false =>
    rw [tabled?, if_neg (noNumber ▸ Bool.false_ne_true)]
    rfl

theorem Has.register (coherent : R.Coherent P) (has : R.Has limits A root source r)
    (again : Option Float) :
    R.register A root source again =
      (if usesHost (A.canonicalize limits root).2 (A.canonicalize limits root).1.root ∧
          (again.getD 0.0).isNaN
        then .error (.notNumber .gene) else .ok r, R) := by
  obtain rfl := has.decided
  have found := coherent.insertGene (g := submission (A.canonicalize R.policy.limits root).1
    (A.canonicalize R.policy.limits root).2 source again)
    has.gene has.named has.cid has.form (SoulId.wellFormed_ofCanonical _) has.cost
  rw [register_eq has.valid has.final, submit, withObjects, put_of_stored has.snapshot,
    put_of_stored has.form]
  simp only [found, isNaN_submission]
  split
  · rfl
  · exact Prod.ext (congrArg Except.ok has.answer.symm) rfl

/-- Whatever happens before and after a registration. -/
theorem has_after (policy : Policy) (before between : List Operation)
    (done : (((empty policy).after before).register A root source purity).1 = .ok r) :
    let history := before ++ .register A root source purity :: between
    ((empty policy).after history).Has policy.limits A root source r ∧
      ((empty policy).after history).Coherent (· ∈ (empty policy).puts history) := by
  intro history
  have first := after_changes (sound_empty policy) before
  have sound := first.sound (sound_empty policy)
  have decided := congrArg Policy.limits first.extends.policy
  have has := register_has sound (Prod.ext done rfl)
  rw [decided] at has
  have step := perform_changes sound (.register A root source purity)
  have later := after_changes (step.sound sound) between
  refine ⟨?_, coherent_after policy history⟩
  rw [after_append]
  exact has.extends later.extends

theorem usesHost_of_prim {i : NodeId} {name : String} (h : A.Holds i (.atom (.prim name))) :
    usesHost A i := by
  obtain ⟨above, last⟩ := A.exists_reachable_eq h.1
  obtain ⟨n, found, shows⟩ := h.exists_shows
  cases shows
  rw [usesHost, last, List.any_append, Bool.or_eq_true]
  right
  simp only [List.any_cons, found, List.any_nil, Bool.or_false]

theorem Outcome.exists_map_ok {α β : Type} {o : Outcome α} {f : α → β} {a : α}
    (done : o.1 = .ok a) : ∃ b, (o.map f).1 = .ok b := by
  refine ⟨f a, ?_⟩
  rw [Outcome.map, done]
  rfl

/-- Without objectives all scores are zero, so every champion is stored. -/
theorem exists_recompute_ok {soul : SoulId} (known : R.knows soul) (reads : R.Reads soul)
    (plain : R.policy.objectives = []) : ∃ c, (R.recompute soul).1 = .ok c := by
  obtain ⟨best, found⟩ := exists_champion known
  have zero : best.score = 0.0 := by
    have mem := Scored.mem_of_champion? found
    rw [plain] at mem
    obtain ⟨c, -, rfl⟩ := List.mem_map.1 mem
    rfl
  have number : tabled? 0.0 = some 0.0 := by decide +kernel
  rw [recompute_of_champion? known reads found (zero ▸ number)]
  exact ⟨_, rfl⟩

/-- Where there are no genes there are no edges. -/
theorem Sound.clear_of_first (sound : R.Sound) (first : R.genes = []) (genes : List Gene) :
    { R with genes }.Clear := by
  intro e he _
  obtain ⟨g, hg, -⟩ := knows_iff.1 (sound.edges e he).1.1
  rw [first] at hg
  cases hg

theorem exists_insertGene_ok (sound : R.Sound) (first : R.genes = [])
    (plain : R.policy.objectives = []) (stored : (R.object? g.cid).isSome)
    (formed : g.soul.WellFormed) (cost : (tabled? g.complexity).isSome)
    (number : ¬g.purity.isNaN) : ∃ h, (R.insertGene g).1 = .ok h := by
  obtain ⟨complexity, cost⟩ := Option.isSome_iff_exists.1 cost
  rw [insertGene_first first stored formed cost (if_neg number)]
  have known : { R with genes := R.genes ++ [{ g with complexity, purity := g.purity + 0.0 }] }.knows
      g.soul := knows_iff.2 ⟨_, List.mem_append_right _ List.mem_cons_self, rfl⟩
  obtain ⟨c, done⟩ := exists_recompute_ok known ⟨formed, sound.clear_of_first first _⟩ plain
  exact Outcome.exists_map_ok done

/-- The first registration succeeds, if it has numbers and there are no objectives. -/
theorem exists_register_ok (sound : R.Sound) (first : R.genes = []) (plain : R.policy.objectives = [])
    (valid : A.validateClosed root = .ok ())
    (final : ¬(A.canonicalize R.policy.limits root).1.soul.provisional)
    (cost : (tabled?
      (UInt64.ofNat (A.canonicalize R.policy.limits root).1.finalCost).toFloat).isSome)
    (number : ¬(purity.getD 0.0).isNaN) :
    ∃ r, (R.register A root source purity).1 = .ok r := by
  have changes := R.withObjects_changes A root source
  have policy := changes.extends.policy
  have none := (R.withObjects_genes A root source).trans first
  obtain ⟨h, done⟩ := exists_insertGene_ok (g := submission (A.canonicalize R.policy.limits root).1
    (A.canonicalize R.policy.limits root).2 source purity) (changes.sound sound) none
    (policy ▸ plain) (R.withObjects_stored A root source).2 (SoulId.wellFormed_ofCanonical _) cost
    fun noNumber => number (isNaN_submission.1 noNumber).2
  rw [register_eq valid final]
  exact Outcome.exists_map_ok done

/-- A primitive of the host, alone. -/
def primitive : NodeId × Arena := Arena.empty.plant (.atom (.prim "f"))

/-- There are no objectives, and what is normal is final. -/
def indifferent : Policy := ⟨0.5, [], ⟨0, 1, 0, 8⟩⟩

theorem primitive_registered :
    (∃ r, ((empty indifferent).register primitive.2 primitive.1 "s" (some 0.5)).1 = .ok r) ∧
      usesHost (primitive.2.canonicalize indifferent.limits primitive.1).2
        (primitive.2.canonicalize indifferent.limits primitive.1).1.root := by
  let t : Term := .atom (.prim "f")
  have held : primitive.2.Holds primitive.1 t := Arena.empty.plant_holds (by decide)
  have normal : t.Normal := by decide
  have rounds : 0 < indifferent.limits.maxRounds := by decide
  have small : t.size ≤ indifferent.limits.maxTreeSize := by decide
  obtain ⟨final, form, cost⟩ := Arena.canonicalize_of_no_passes held normal rounds rfl small
  have valid := held.validateClosed rfl
  have price : (tabled? (UInt64.ofNat
      (primitive.2.canonicalize indifferent.limits primitive.1).1.finalCost).toFloat).isSome := by
    rw [cost]
    decide +kernel
  have number : ¬((some 0.5).getD 0.0 : Float).isNaN := by decide +kernel
  refine ⟨exists_register_ok (sound_empty _) rfl rfl valid ?_ price number, usesHost_of_prim form⟩
  exact final ▸ Bool.false_ne_true

/-- If an expression was registered once, then at any later time, whatever has happened, it is
registered again from the same source with the same answer, and nothing is written. The purity that
is given with it does not matter, except that if it is no number, and the canonical form uses
primitives of the host, the database fails. -/
theorem register_again (policy : Policy) (before between : List Operation) (A : Arena)
    (root : NodeId) (source : String) (purity : Option Float) (r : Registration)
    (done : (((empty policy).after before).register A root source purity).1 = .ok r)
    (again : Option Float) :
    let R := (empty policy).after (before ++ .register A root source purity :: between)
    let (c, B) := A.canonicalize policy.limits root
    R.register A root source again =
      (if usesHost B c.root ∧ (again.getD 0.0).isNaN then .error (.notNumber .gene) else .ok r, R) := by
  obtain ⟨has, coherent⟩ := has_after policy before between done
  exact has.register coherent again

/-- Another gene comes in, and then the primitive is registered again, as purer than before. -/
theorem register_again_primitive :
    let gene : Gene := ⟨⟨"λ0000000a"⟩, "s", .ofBytes [0], "", 1.0, 1.0, 1⟩
    let between : List Operation := [.put [0] .ir none, .insertGene gene, .recompute gene.soul]
    ∃ r, ((empty indifferent).register primitive.2 primitive.1 "s" (some 0.5)).1 = .ok r ∧
      let R := (empty indifferent).after
        (.register primitive.2 primitive.1 "s" (some 0.5) :: between)
      R.register primitive.2 primitive.1 "s" (some 0.75) = (.ok r, R) := by
  intro gene between
  obtain ⟨⟨r, done⟩, -⟩ := primitive_registered
  refine ⟨r, done, ?_⟩
  have number : ¬((some 0.75).getD 0.0 : Float).isNaN := by decide +kernel
  have main := register_again indifferent [] between _ _ "s" (some 0.5) r done (some 0.75)
  exact main.trans (congrArg (·, _) (if_neg fun h => number h.2))

/-- A registration fails when it is repeated with a purity that is no number. -/
theorem not_forall_register_again :
    ¬∀ (policy : Policy) (before between : List Operation) (A : Arena) (root : NodeId)
      (source : String) (purity : Option Float) (r : Registration),
      (((empty policy).after before).register A root source purity).1 = .ok r →
      ∀ again,
        let R := (empty policy).after (before ++ .register A root source purity :: between)
        R.register A root source again = (.ok r, R) := by
  intro all
  obtain ⟨⟨r, done⟩, uses⟩ := primitive_registered
  have noNumber : ((some (0.0 / 0.0)).getD 0.0 : Float).isNaN := by decide +kernel
  obtain ⟨has, coherent⟩ := has_after indifferent [] [] done
  have failed := has.register coherent (some (0.0 / 0.0))
  rw [if_pos ⟨uses, noNumber⟩, all indifferent [] [] _ _ _ _ r done] at failed
  cases failed

end GeneCalculus.Registry
