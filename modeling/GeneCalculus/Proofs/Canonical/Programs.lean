import GeneCalculus.Proofs.Canonical.Settling
import GeneCalculus.Proofs.Reduction.Programs
import GeneCalculus.Proofs.Rewrite.Application

/-!
Canonicalization evaluates programs. Normalization decides choices and negations and rewriting folds
operators, so neither evaluates a program alone. But what normalization leaves has either become a
constant or has operators for the next pass to fold, so each round saves a node until there is one.
-/

namespace GeneCalculus

namespace Term

variable {laws : List Law} {t u l r : Term} {v a b : Literal} {op : Operator}

/-- A rule that matches a program folds an operator. -/
theorem Program.outcome? {law : Law} (program : t.Program) (made : law.outcome? t = some u) :
    t.Simplifies u := by
  cases Law.outcome?_eq_some_iff.1 made with
  | foldConstants value => exact ⟨.const _, value.symm, by simp only [size]; omega⟩
  | dropIdentity | fuseMaps | fuseFilter => cases program

theorem Program.improve (laws : List Law) (program : t.Program) : t.Simplifies (t.improve laws) := by
  unfold Term.improve
  split
  · exact program.simplifies
  · rename_i found
    exact program.outcome? (outcome?_of_improve? found).2.1

/-- A pass leaves a program of the same value and of no more nodes. -/
theorem Program.pass (laws : List Law) (program : t.Program) : t.Simplifies (t.pass laws) := by
  induction program with
  | const v => exact (Program.const v).improve laws
  | arith op _ _ left right =>
    have parts := left.arith op right
    exact parts.trans (parts.program.improve laws)
  | neg _ inner => exact inner.neg.trans (inner.neg.program.improve laws)
  | choose _ _ _ decides first second =>
    have parts := decides.choose first second
    exact parts.trans (parts.program.improve laws)

/-- A pass makes a normal program smaller if it has a value and is not a constant yet. -/
theorem Program.size_pass_lt (program : t.Program) (normal : t.Normal) (value : t.value? = some v)
    (unfinished : t ≠ .const v) : (t.pass Law.all).size < t.size := by
  induction program generalizing v with
  | const w =>
    cases value
    exact absurd rfl unfinished
  | @arith op l r hl hr ih₁ ih₂ =>
    obtain ⟨a, left, rest⟩ := Option.bind_eq_some_iff.1 value
    obtain ⟨b, right, folded⟩ := Option.bind_eq_some_iff.1 rest
    by_cases both : l = .const a ∧ r = .const b
    · obtain ⟨rfl, rfl⟩ := both
      simp only [Term.pass, improve_atom, improve_arith folded, size]
      omega
    · have lel := (hl.pass Law.all).size_le
      have ler := (hr.pass Law.all).size_le
      have less : (l.pass Law.all).size < l.size ∨ (r.pass Law.all).size < r.size := by
        by_cases const : l = .const a
        · exact .inr (ih₂ (normal.child (by simp [children])) right fun same => both ⟨const, same⟩)
        · exact .inl (ih₁ (normal.child (by simp [children])) left const)
      have parts := (hl.pass Law.all).arith op (hr.pass Law.all)
      refine Nat.lt_of_le_of_lt (parts.program.improve Law.all).size_le ?_
      simp only [size]
      omega
  | @neg x hx ih =>
    obtain ⟨b, inner⟩ := exists_value?_of_neg value
    have stuck : x ≠ .bool b := fun same => by
      subst same
      cases normal.root.1
    have less := ih (normal.child (by simp [children])) inner stuck
    refine Nat.lt_of_le_of_lt ((hx.pass Law.all).neg.program.improve Law.all).size_le ?_
    simp only [size]
    omega
  | @choose cond yes no hc hy hn ih =>
    obtain ⟨b, decides⟩ := exists_value?_of_choose value
    have stuck : cond ≠ .bool b := fun same => by
      subst same
      cases normal.root.1
    have less := ih (normal.child (by simp [children])) decides stuck
    have ley := (hy.pass Law.all).size_le
    have len := (hn.pass Law.all).size_le
    have parts := (hc.pass Law.all).choose (hy.pass Law.all) (hn.pass Law.all)
    refine Nat.lt_of_le_of_lt (parts.program.improve Law.all).size_le ?_
    simp only [size]
    omega

/-- Nothing but a constant has one node. -/
theorem Program.eq_const (program : t.Program) (value : t.value? = some v) (one : t.size ≤ 1) :
    t = .const v := by
  cases program with
  | const w => cases value; rfl
  | @arith op l r hl hr =>
    have := l.size_pos
    simp only [size] at one
    omega
  | @neg x hx =>
    have := x.size_pos
    simp only [size] at one
    omega
  | @choose cond yes no hc hy hn =>
    have := cond.size_pos
    simp only [size] at one
    omega

/-- Normalization and a pass together save a node of a program that has a value and is not a constant
yet. -/
theorem Simplifies.size_pass_lt (reduced : t.Simplifies u) (normal : u.Normal)
    (value : t.value? = some v) (unfinished : t ≠ .const v) (program : t.Program) :
    (u.pass Law.all).size < t.size := by
  by_cases done : u = .const v
  · have more : 1 < t.size := Nat.lt_of_not_le fun one => unfinished (program.eq_const value one)
    rw [done, Term.pass, improve_atom]
    exact more
  · exact Nat.lt_of_lt_of_le
      (reduced.program.size_pass_lt normal (reduced.value.trans value) done) reduced.size_le

end Term

namespace Stage

variable {limits : Limits} {cap : Nat} {s next out : Stage} {v : Literal}

/-- On the way from a program to its value, with enough steps. -/
structure Evaluating (limits : Limits) (v : Literal) (s : Stage) : Prop where
  program : s.current.Program
  value : s.current.value? = some v
  enough : s.exhausted = false
  budget : s.current.size ≤ limits.normalizeBudget

/-- A round over the value converges, and any other saves a node. -/
theorem Evaluating.round (here : s.Evaluating limits v) (h : Round limits s next)
    (passes : 0 < limits.maxPasses) : next.Evaluating limits v ∧
      (s.current = .const v → next.current = .const v ∧ next.converged = true) ∧
      (s.current ≠ .const v → next.current.size < s.current.size ∧ next.converged = false) := by
  obtain ⟨n, c, run⟩ : ∃ n c, s.current.NormalForm Term.Any (.start limits.normalizeBudget) n c := by
    cases h with | intro run => exact ⟨_, _, run⟩
  obtain ⟨reduced, enough⟩ := here.program.normalForm_start run
  have enough := enough here.budget
  have normal := (run.evaluates_start enough).normal
  obtain ⟨current, exhausted, converged⟩ := h.of_normalForm run enough passes
  have passed := reduced.trans (reduced.program.pass Law.all)
  rw [← current] at passed
  refine ⟨⟨passed.program, passed.value.trans here.value, exhausted.trans here.enough,
    Nat.le_trans passed.size_le here.budget⟩, fun done => ?_, fun unfinished => ?_⟩
  · have stays : s.current.pass Law.all = s.current := by rw [done, Term.pass, Term.improve_atom]
    obtain ⟨same, -, converged⟩ := h.of_settled (done ▸ ⟨rfl, rfl⟩) stays passes
    exact ⟨same.trans done, converged⟩
  · have less := reduced.size_pass_lt normal here.value unfinished here.program
    refine ⟨current ▸ less, converged.trans (decide_eq_false fun unchanged => ?_)⟩
    exact absurd (congrArg Term.size unchanged.2) (Nat.ne_of_lt less)

/-- As many rounds as there are nodes are enough. -/
theorem Evaluating.rounds (here : s.Evaluating limits v) (h : Rounds limits cap s out)
    (passes : 0 < limits.maxPasses) (enough : s.current.size ≤ cap) :
    out.current = .const v ∧ out.converged = true ∧ out.exhausted = false := by
  induction h with
  | cap => exact absurd enough (Nat.not_le.2 (Term.size_pos _))
  | @last cap s next round stops =>
    obtain ⟨there, value, less⟩ := here.round round passes
    by_cases done : s.current = .const v
    · exact ⟨(value done).1, (value done).2, there.enough⟩
    · rw [Stage.stops, (less done).2, there.enough] at stops
      cases stops
  | @more cap s next out round goes _ ih =>
    obtain ⟨there, value, less⟩ := here.round round passes
    by_cases done : s.current = .const v
    · rw [Stage.stops, (value done).2] at goes
      cases goes
    · have := (less done).1
      exact ih there (by omega)

end Stage

namespace Arena

/-- The canonical form of a program that has a value is that value, whatever is in the branches that
are not chosen, if each round may take as many steps, and there may be as many rounds, as the tree has
nodes. -/
theorem canonicalize_program (A : Arena) (root : NodeId) (known : root < A.size)
    (program : (A.term root).Program) (v : Literal) (value : (A.term root).value? = some v)
    (limits : Limits) (budget : (A.term root).size ≤ limits.normalizeBudget)
    (rounds : (A.term root).size ≤ limits.maxRounds) (passes : 1 ≤ limits.maxPasses)
    (small : 1 ≤ limits.maxTreeSize) :
    let out := A.canonicalize limits root
    out.1.soul.provisional = false ∧ out.2.node? out.1.root = some (.const v) := by
  intro out
  obtain ⟨-, stage, run, tells⟩ := canonicalize_holds (holds_term known) limits
  have start : (Stage.start (A.term root)).Evaluating limits v := ⟨program, value, rfl, budget⟩
  obtain ⟨current, converged, enough⟩ := start.rounds run passes rounds
  constructor
  · have inside : stage.oversized limits = false := by
      rw [Stage.oversized, current]
      exact decide_eq_false (Nat.not_lt.2 (Nat.le_trans (Nat.min_le_left _ _) small))
    rw [tells.soul, Stage.soul, enough, converged, inside]
    rfl
  · obtain ⟨n, found, shown⟩ := tells.root.exists_shows
    rw [current] at shown
    cases shown with
    | atom => exact found

/-- Seven less two, because three is not less than three; one divided by zero has no value. -/
theorem canonicalize_program_chosen :
    let int : Int64 → Term := fun n => .const (.int n)
    let sum : Term := .arith .add (int 1) (int 2)
    let t : Term := .choose (.neg (.arith .lt sum (int 3))) (.arith .sub (int 7) (int 2))
      (.arith .div (int 1) (int 0))
    let A := (empty.plant t).2
    let root := (empty.plant t).1
    let limits : Limits := ⟨13, 13, 1, 1⟩
    let out := A.canonicalize limits root
    (root < A.size ∧ (A.term root).Program ∧ (A.term root).value? = some (.int 5) ∧
        (A.term root).size ≤ limits.normalizeBudget ∧ (A.term root).size ≤ limits.maxRounds ∧
        1 ≤ limits.maxPasses ∧ 1 ≤ limits.maxTreeSize ∧
        (Term.arith .div (int 1) (int 0)).value? = none) ∧
      out.1.soul.provisional = false ∧ out.2.node? out.1.root = some (.const (.int 5)) := by
  intro int sum t A root limits out
  have h : A.Holds root t := empty.plant_holds (by decide)
  have program : t.Program :=
    .choose (.neg (.arith .lt (.arith .add (.const _) (.const _)) (.const _)))
      (.arith .sub (.const _) (.const _)) (.arith .div (.const _) (.const _))
  have value : t.value? = some (.int 5) := by decide
  have size : t.size ≤ 13 := by decide
  rw [← h.2] at program value size
  exact ⟨⟨h.1, program, value, size, size, Nat.le_refl 1, Nat.le_refl 1, by decide⟩,
    canonicalize_program A root h.1 program (.int 5) value limits size size (Nat.le_refl 1)
      (Nat.le_refl 1)⟩

end Arena

end GeneCalculus
