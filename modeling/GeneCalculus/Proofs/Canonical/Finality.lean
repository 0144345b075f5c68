import GeneCalculus.Proofs.Calculus.Step
import GeneCalculus.Proofs.Canonical.Optimization
import GeneCalculus.Proofs.Canonical.Settling
import GeneCalculus.Proofs.Rewrite.Application

/-!
What a final soul promises. No part of the canonical form is a redex, and if rewriting is allowed a
pass at all, no rule makes any part cheaper. Without passes nothing is rewritten, and since nothing
changes then, the rounds end as if there were nothing to rewrite.
-/

namespace GeneCalculus

open Term (Contracts)

namespace Term

variable {t u c : Term} {d : Nat}

theorem Contains.cost_le (h : t.Contains d u) : u.cost ≤ t.cost := by
  induction h with
  | self => exact Nat.le_refl _
  | part mem _ ih => exact Nat.le_trans ih (cost_le_of_mem_children mem)

end Term

namespace Stage

variable {limits : Limits} {cap : Nat} {t : Term} {out : Stage}

/-- What rounds converge to without lacking a step is normal, and stable if there are passes. -/
theorem Rounds.settled (h : Rounds limits cap (.start t) out) (converged : out.converged = true)
    (enough : out.exhausted = false) :
    out.current.Normal ∧ (0 < limits.maxPasses → out.current.Stable Law.all) := by
  obtain ⟨-, last, round, same⟩ := h.last_round rfl converged
  obtain @⟨r, c, told, run, saturates⟩ := round
  obtain ⟨reduced, rewritten⟩ := of_decide_eq_true converged
  have spare := (Bool.or_eq_false_iff.1 enough).2
  have current : r = told.result := reduced.trans rewritten.symm
  constructor
  · have normal := (run.evaluates_start spare).normal
    exact current ▸ normal
  · intro passes
    obtain ⟨p, hp⟩ := Nat.exists_eq_add_of_lt passes
    rw [hp] at saturates
    have result := saturates.first.1
    show told.result.Stable Law.all
    rw [result]
    exact Term.stable_pass Law.all r

/-- Without passes the rounds over a normal tree end at once, whatever the rules say of it. -/
theorem Rounds.of_no_passes (normal : t.Normal) (rounds : 0 < cap) (none : limits.maxPasses = 0)
    (h : Rounds limits cap (.start t) out) :
    out.current = t ∧ out.converged = true ∧ out.exhausted = false := by
  obtain ⟨c, run, fuel⟩ := normal.start limits.normalizeBudget
  have idle : t.Saturates Law.all limits.maxPasses 0 .empty ⟨t, 0, false, .empty⟩ := by
    rw [none]
    exact .cap
  have round : Round limits (.start t) _ := .intro run idle
  have spare : c.fuel.exhausted = false := congrArg Fuel.exhausted fuel
  have converged : Stage.converged (advance (.start t) t c.fuel.exhausted
      (limits.normalizeBudget - c.fuel.left) ⟨t, 0, false, .empty⟩) = true :=
    decide_eq_true ⟨rfl, rfl⟩
  obtain ⟨cap, rfl⟩ := Nat.exists_eq_succ_of_ne_zero (Nat.ne_of_gt rounds)
  cases h.deterministic (.last round (by rw [stops, converged, Bool.true_or]))
  exact ⟨rfl, converged, spare⟩

end Stage

namespace Arena

/-- If a soul is final, no part of the canonical form is a redex, and if there are passes, no rule
replaces a part by what costs less, as the engine tells costs and, below its capacity, in truth. -/
theorem final_form_irreducible (A : Arena) (limits : Limits) (root : NodeId) (known : root < A.size)
    (final : (A.canonicalize limits root).1.soul.provisional = false) :
    let canonical := (A.canonicalize limits root).2.term (A.canonicalize limits root).1.root
    (∀ d v u, canonical.Contains d v → ¬ Contracts v u) ∧
      (0 < limits.maxPasses → ∀ (d : Nat) (v : Term) (law : Law) (u : Term), canonical.Contains d v →
        law.outcome? v = some u → ¬ u.price < v.price ∧
          ((A.canonicalize limits root).1.finalCost < capacity → ¬ u.cost < v.cost)) := by
  obtain ⟨-, stage, rounds, tells⟩ := canonicalize_holds (holds_term known) limits
  obtain ⟨converged, enough, -⟩ := Stage.converged_of_final (tells.soul ▸ final)
  obtain ⟨normal, stable⟩ := rounds.settled converged enough
  intro canonical
  have current : canonical = stage.current := tells.root.2
  rw [← current] at normal stable
  constructor
  · intro d v u inside contracted
    exact contracted.not_inert (normal.contains inside).root
  · intro passes d v law u inside made
    have part := ((stable passes).contains inside).root
    have mem : law ∈ Law.all := by cases law <;> decide
    have refused : ¬ u.price < v.price := Nat.not_lt.2 (Term.improve?_eq_none_iff.1 part law mem u made)
    refine ⟨refused, fun small cheaper => refused ?_⟩
    rw [tells.finalCost, ← current, Term.price] at small
    have whole := inside.cost_le
    exact Term.price_lt_iff.2 ⟨cheaper, by omega⟩

/-- Two maps of a list are joined within two rounds, and nothing is left to do then. -/
theorem joined_maps_irreducible :
    let t : Term := .map (.atom (.prim "f")) (.map (.atom (.prim "g")) (.atom (.prim "xs")))
    let A := (empty.plant t).2
    let root := (empty.plant t).1
    let limits : Limits := { normalizeBudget := 0, maxRounds := 2, maxPasses := 1, maxTreeSize := 5 }
    let canonical := (A.canonicalize limits root).2.term (A.canonicalize limits root).1.root
    (root < A.size ∧ (A.canonicalize limits root).1.soul.provisional = false) ∧
      (∀ d v u, canonical.Contains d v → ¬ Contracts v u) ∧
      (0 < limits.maxPasses → ∀ (d : Nat) (v : Term) (law : Law) (u : Term), canonical.Contains d v →
        law.outcome? v = some u → ¬ u.price < v.price ∧
          ((A.canonicalize limits root).1.finalCost < capacity → ¬ u.cost < v.cost)) := by
  intro t A root limits
  have held : A.Holds root t := empty.plant_holds (by decide)
  have final := congrArg Soul.provisional (canonicalize_normal held limits (by decide) (by decide)
    (by decide) (by decide) (by decide)).1
  exact ⟨⟨held.1, final⟩, final_form_irreducible A limits root held.1 final⟩

/-- A soul under limits that allow no pass is final for every normal tree that is small enough. -/
theorem canonicalize_of_no_passes {A : Arena} {root : NodeId} {t : Term} {limits : Limits}
    (h : A.Holds root t) (normal : t.Normal) (rounds : 0 < limits.maxRounds)
    (none : limits.maxPasses = 0) (small : t.size ≤ limits.maxTreeSize) :
    (A.canonicalize limits root).1.soul.provisional = false ∧
      (A.canonicalize limits root).2.Holds (A.canonicalize limits root).1.root t ∧
      (A.canonicalize limits root).1.finalCost = t.price := by
  obtain ⟨-, stage, run, tells⟩ := canonicalize_holds h limits
  obtain ⟨current, converged, enough⟩ := run.of_no_passes normal rounds none
  have inside : stage.oversized limits = false := by
    rw [Stage.oversized, current]
    exact decide_eq_false (Nat.not_lt.2 (Nat.le_trans (Nat.min_le_left _ _) small))
  refine ⟨?_, current ▸ tells.root, current ▸ tells.finalCost⟩
  rw [tells.soul, Stage.soul, inside, converged, enough]
  rfl

/-- A final soul does not tell that no rule is left to apply: limits that allow no pass leave the
map of the identity as it is. -/
theorem not_forall_final_form_rewritten :
    ¬ ∀ (A : Arena) (limits : Limits) (root : NodeId), root < A.size →
      (A.canonicalize limits root).1.soul.provisional = false →
      (A.canonicalize limits root).1.finalCost < capacity →
      ∀ (d : Nat) (v : Term) (law : Law) (u : Term),
        ((A.canonicalize limits root).2.term (A.canonicalize limits root).1.root).Contains d v →
        law.outcome? v = some u → ¬ u.cost < v.cost := by
  intro all
  let xs : Term := .atom (.prim "xs")
  let t : Term := .map .ident xs
  let limits : Limits := { Limits.standard with maxPasses := 0 }
  have held : (empty.plant t).2.Holds (empty.plant t).1 t := empty.plant_holds (by decide)
  have normal : t.Normal := by decide
  have rounds : 0 < limits.maxRounds := by decide
  have small : t.size ≤ limits.maxTreeSize := by decide
  obtain ⟨final, root, cost⟩ := canonicalize_of_no_passes held normal rounds rfl small
  have cheap : t.price < capacity := by decide
  refine all _ limits _ held.1 final (cost ▸ cheap) 0 t .dropIdentity xs ?_ rfl (by decide)
  rw [root.2]
  exact .self t

end Arena

end GeneCalculus
