import GeneCalculus.Proofs.Canonical.Rounds
import GeneCalculus.Proofs.Reduction.Normality

/-!
Canonicalization of trees that settle. Each round rewrites the normal form of what it finds, and the
last finds nothing to do; a tree whose normal form is rewritten to a normal tree takes two rounds.
-/

namespace GeneCalculus

namespace Stage

variable {limits : Limits} {s next : Stage} {t n : Term} {c : Course}

/-- A round that lacks no step is a pass over the normal form. -/
theorem Round.of_normalForm (h : Round limits s next)
    (run : s.current.NormalForm Term.Any (.start limits.normalizeBudget) n c)
    (enough : c.fuel.exhausted = false) (passes : 0 < limits.maxPasses) :
    next.current = n.pass Law.all ∧ next.exhausted = s.exhausted ∧
      next.converged = decide (n = s.current ∧ n.pass Law.all = s.current) := by
  obtain @⟨r, c', told, run', settled⟩ := h
  obtain ⟨rfl, rfl⟩ := run.deterministic run'
  obtain ⟨p, hp⟩ := Nat.exists_eq_add_of_lt passes
  rw [hp] at settled
  have result := settled.first.1
  refine ⟨result, ?_, ?_⟩
  · simp only [advance, enough, Bool.or_false]
  · simp only [advance, result]

/-- A round over a normal tree that a pass leaves changes nothing. -/
theorem Round.of_settled (h : Round limits s next) (normal : s.current.Normal)
    (stays : s.current.pass Law.all = s.current) (passes : 0 < limits.maxPasses) :
    next.current = s.current ∧ next.exhausted = s.exhausted ∧ next.converged = true := by
  obtain ⟨c, run, fuel⟩ := normal.start limits.normalizeBudget
  obtain ⟨current, exhausted, converged⟩ :=
    h.of_normalForm run (congrArg Fuel.exhausted fuel) passes
  exact ⟨current.trans stays, exhausted, converged.trans (decide_eq_true ⟨rfl, stays⟩)⟩

/-- Rounds of at most `m` steps lead to a normal tree that a pass leaves, in `k` rounds with the one
that finds nothing to do. -/
inductive Settles (m : Nat) : Nat → Term → Term → Prop
  | done {t : Term} : t.Normal → t.pass Law.all = t → Settles m 1 t t
  | round {k : Nat} {t n u : Term} {c : Course} : t.NormalForm Term.Any (.start m) n c →
      c.fuel.exhausted = false → Settles m k (n.pass Law.all) u → Settles m (k + 1) t u

variable {m k cap : Nat} {u : Term} {out : Stage}

/-- A normal tree is settled with its pass, if that is normal. -/
theorem Settles.of_normal_pass (normal : (n.pass Law.all).Normal) :
    Settles m 1 (n.pass Law.all) (n.pass Law.all) :=
  .done normal (Term.stable_pass Law.all n).pass_eq

/-- A tree that a round leaves settles to nothing else. -/
theorem Settles.eq_of_fixed (h : Settles m k t u) (run : t.NormalForm Term.Any (.start m) t c)
    (stays : t.pass Law.all = t) : u = t := by
  induction h with
  | done => rfl
  | round run' _ _ ih =>
    obtain ⟨rfl, -⟩ := run.deterministic run'
    rw [stays] at ih
    exact ih run stays

/-- Enough rounds reach what the tree settles to. -/
theorem Rounds.of_settles (h : Rounds limits cap s out)
    (settles : Settles limits.normalizeBudget k s.current u) (enough : s.exhausted = false)
    (passes : 0 < limits.maxPasses) (rounds : k ≤ cap) :
    out.current = u ∧ out.converged = true ∧ out.exhausted = false := by
  induction h generalizing k with
  | cap => cases settles <;> exact absurd rounds (Nat.not_succ_le_zero _)
  | last round stops =>
    cases settles with
    | done normal stays =>
      obtain ⟨current, exhausted, converged⟩ := round.of_settled normal stays passes
      exact ⟨current, converged, exhausted.trans enough⟩
    | round run spare rest =>
      obtain ⟨current, exhausted, converged⟩ := round.of_normalForm run spare passes
      rw [Stage.stops, exhausted, enough, Bool.or_false] at stops
      obtain ⟨same, stays⟩ := of_decide_eq_true (converged.symm.trans stops)
      rw [same] at run rest current stays
      have reached := (stays ▸ rest).eq_of_fixed run stays
      exact ⟨(current.trans stays).trans reached.symm, stops, exhausted.trans enough⟩
  | more round goes _ ih =>
    cases settles with
    | done normal stays =>
      rw [Stage.stops, (round.of_settled normal stays passes).2.2] at goes
      cases goes
    | round run spare rest =>
      obtain ⟨current, exhausted, -⟩ := round.of_normalForm run spare passes
      exact ih (current.symm ▸ rest) (exhausted.trans enough) (Nat.le_of_succ_le_succ rounds)

end Stage

variable {A : Arena} {root : NodeId} {t n u : Term} {c : Course} {k : Nat}

/-- The canonical form of a tree is what it settles to. -/
theorem Arena.canonicalize_of_settles (h : A.Holds root t) (limits : Limits)
    (settles : Stage.Settles limits.normalizeBudget k t u) (passes : 0 < limits.maxPasses)
    (rounds : k ≤ limits.maxRounds) (small : u.size ≤ limits.maxTreeSize) :
    (A.canonicalize limits root).1.soul = ⟨.ofCanonical u.encode, false⟩ ∧
      (A.canonicalize limits root).2.Holds (A.canonicalize limits root).1.root u := by
  obtain ⟨-, stage, run, tells⟩ := canonicalize_holds h limits
  obtain ⟨current, converged, enough⟩ := run.of_settles settles rfl passes rounds
  have inside : stage.oversized limits = false := by
    rw [Stage.oversized, current]
    exact decide_eq_false (Nat.not_lt.2 (Nat.le_trans (Nat.min_le_left _ _) small))
  refine ⟨?_, current ▸ tells.root⟩
  rw [tells.soul, Stage.soul, Stage.bytes, inside, converged, enough, current]
  rfl

/-- The canonical form of a tree whose normal form is rewritten to a normal tree is that tree. -/
theorem Arena.canonicalize_of_normalForm (h : A.Holds root t) (limits : Limits)
    (run : t.NormalForm Term.Any (.start limits.normalizeBudget) n c) (enough : c.fuel.exhausted = false)
    (normal : (n.pass Law.all).Normal) (passes : 0 < limits.maxPasses)
    (rounds : 2 ≤ limits.maxRounds) (small : (n.pass Law.all).size ≤ limits.maxTreeSize) :
    (A.canonicalize limits root).1.soul = ⟨.ofCanonical (n.pass Law.all).encode, false⟩ ∧
      (A.canonicalize limits root).2.Holds (A.canonicalize limits root).1.root (n.pass Law.all) :=
  canonicalize_of_settles h limits (.round run enough (.of_normal_pass normal)) passes rounds small

/-- The canonical form of a normal tree that is rewritten to a normal tree. -/
theorem Arena.canonicalize_normal (h : A.Holds root t) (limits : Limits) (normal : t.Normal)
    (normal' : (t.pass Law.all).Normal) (passes : 0 < limits.maxPasses)
    (rounds : 2 ≤ limits.maxRounds) (small : (t.pass Law.all).size ≤ limits.maxTreeSize) :
    (A.canonicalize limits root).1.soul = ⟨.ofCanonical (t.pass Law.all).encode, false⟩ ∧
      (A.canonicalize limits root).2.Holds (A.canonicalize limits root).1.root (t.pass Law.all) := by
  obtain ⟨c, run, fuel⟩ := normal.start limits.normalizeBudget
  exact canonicalize_of_normalForm h limits run (congrArg Fuel.exhausted fuel) normal' passes rounds
    small

end GeneCalculus
