import GeneCalculus.Proofs.Reduction.Normality
import GeneCalculus.Proofs.Sharing.Measure

/-!
Programs: expressions of constants, operators, negations and choices. A direct evaluator gives them
values. Normalization decides the choices and negations that it can; it keeps the value, and it
spends no more steps than it saves nodes.
-/

namespace GeneCalculus

/-- On the way from `m` nodes to `n`, no step is lacking if there are `m` of them, and no more are
spent than nodes are saved. -/
def Fuel.Saves (m n : Nat) (s s' : Fuel) : Prop :=
  s.exhausted = false → m ≤ s.left → s'.exhausted = false ∧ s.left + n ≤ s'.left + m

namespace Fuel.Saves

variable {s s₁ s₂ : Fuel} {a b c m n : Nat}

theorem of_le (le : n ≤ m) (s : Fuel) : s.Saves m n s := fun enough _ => ⟨enough, by omega⟩

theorem trans (first : s.Saves a b s₁) (second : s₁.Saves b c s₂) : s.Saves a c s₂ := by
  intro enough le
  obtain ⟨enough₁, spent₁⟩ := first enough le
  obtain ⟨enough₂, spent₂⟩ := second enough₁ (by omega)
  exact ⟨enough₂, by omega⟩

/-- Two parts one after the other. -/
theorem add (first : s.Saves a b s₁) (second : s₁.Saves m n s₂) : s.Saves (a + m) (b + n) s₂ := by
  intro enough le
  obtain ⟨enough₁, spent₁⟩ := first enough (by omega)
  obtain ⟨enough₂, spent₂⟩ := second enough₁ (by omega)
  exact ⟨enough₂, by omega⟩

/-- A step that saves a node. -/
theorem step {left : Nat} {exhausted : Bool} (less : n < m) :
    Fuel.Saves m n ⟨left + 1, exhausted⟩ ⟨left, exhausted⟩ :=
  fun enough _ => ⟨enough, by simp only; omega⟩

end Fuel.Saves

namespace Term

variable {Q : Term → Term → Prop} {t u c d h l r x cond yes no : Term}

/-- Built of constants, operators, negations and choices alone. -/
inductive Program : Term → Prop
  | const (v : Literal) : Program (const v)
  | arith (op : Operator) {l r : Term} : Program l → Program r → Program (arith op l r)
  | neg {x : Term} : Program x → Program (neg x)
  | choose {cond yes no : Term} : Program cond → Program yes → Program no →
      Program (choose cond yes no)

/-- The value that direct evaluation gives, if it gives one. Of the branches of a choice only the one
that is chosen is evaluated. -/
def value? : Term → Option Literal
  | const v => some v
  | arith op l r => do
    let a ← l.value?
    let b ← r.value?
    op.eval a b
  | neg x =>
    match x.value? with
    | some (.bool b) => some (.bool !b)
    | _ => none
  | choose cond yes no =>
    match cond.value? with
    | some (.bool true) => yes.value?
    | some (.bool false) => no.value?
    | _ => none
  | _ => none

/-- What is negated has a truth value, if there is a value. -/
theorem exists_value?_of_neg {v : Literal} (value : (neg x).value? = some v) :
    ∃ b, x.value? = some (.bool b) := by
  rw [value?] at value
  split at value
  · exact ⟨_, ‹_›⟩
  · cases value

/-- What is chosen by has a truth value, if there is a value. -/
theorem exists_value?_of_choose {v : Literal} (value : (choose cond yes no).value? = some v) :
    ∃ b, cond.value? = some (.bool b) := by
  rw [value?] at value
  split at value
  · exact ⟨_, ‹_›⟩
  · exact ⟨_, ‹_›⟩
  · cases value

/-- A program of the same value and of no more nodes. -/
structure Simplifies (t u : Term) : Prop where
  program : u.Program
  value : u.value? = t.value?
  size_le : u.size ≤ t.size

theorem Program.simplifies (program : t.Program) : t.Simplifies t := ⟨program, rfl, Nat.le_refl _⟩

namespace Simplifies

theorem trans (first : t.Simplifies u) (second : u.Simplifies r) : t.Simplifies r where
  program := second.program
  value := second.value.trans first.value
  size_le := Nat.le_trans second.size_le first.size_le

variable {l' r' x' cond' yes' no' : Term}

theorem arith (op : Operator) (left : l.Simplifies l') (right : r.Simplifies r') :
    (arith op l r).Simplifies (arith op l' r') where
  program := .arith op left.program right.program
  value := by simp only [value?, left.value, right.value]
  size_le := by
    have := left.size_le
    have := right.size_le
    simp only [size]
    omega

theorem neg (inner : x.Simplifies x') : (neg x).Simplifies (neg x') where
  program := .neg inner.program
  value := by simp only [value?, inner.value]
  size_le := Nat.add_le_add_left inner.size_le 1

theorem choose (decides : cond.Simplifies cond') (first : yes.Simplifies yes')
    (second : no.Simplifies no') : (choose cond yes no).Simplifies (choose cond' yes' no') where
  program := .choose decides.program first.program second.program
  value := by simp only [value?, decides.value, first.value, second.value]
  size_le := by
    have := decides.size_le
    have := first.size_le
    have := second.size_le
    simp only [size]
    omega

end Simplifies

namespace Program

theorem of_head (program : t.Program) (head : t.head? = some c) : c.Program := by
  cases program with
  | const | arith => cases head
  | neg x => cases head; exact x
  | choose cond => cases head; exact cond

theorem withHead (program : t.Program) (head : t.head? = some c) (inner : c.Simplifies d) :
    t.Simplifies (t.withHead d) := by
  cases program with
  | const | arith => cases head
  | neg x => cases head; exact inner.neg
  | choose cond yes no => cases head; exact inner.choose yes.simplifies no.simplifies

/-- A redex becomes smaller, and has the same value. -/
theorem contract? (program : t.Program) (next : t.contract? = some u) :
    t.Simplifies u ∧ u.size < t.size := by
  cases program with
  | const | arith => cases next
  | neg x =>
    cases x with
    | const v =>
      cases v with
      | bool b =>
        cases next
        have smaller : (bool !b).size < (Term.neg (bool b)).size := Nat.lt_succ_self 1
        exact ⟨⟨.const _, rfl, Nat.le_of_lt smaller⟩, smaller⟩
      | _ => cases next
    | _ => cases next
  | @choose _ yes no cond hy hn =>
    cases cond with
    | const v =>
      cases v with
      | bool b =>
        cases b with
        | true =>
          cases next
          have smaller : yes.size < (Term.choose (bool true) yes no).size := by
            simp only [size]
            omega
          exact ⟨⟨hy, rfl, Nat.le_of_lt smaller⟩, smaller⟩
        | false =>
          cases next
          have smaller : no.size < (Term.choose (bool false) yes no).size := by
            simp only [size]
            omega
          exact ⟨⟨hn, rfl, Nat.le_of_lt smaller⟩, smaller⟩
      | _ => cases next
    | _ => cases next

theorem collapse (program : t.Program) : t.collapse = t := by cases program <;> rfl

end Program

theorem size_withHead (head : t.head? = some c) (d : Term) :
    (t.withHead d).size + c.size = t.size + d.size := by
  unfold head? at head
  split at head <;> cases head <;> simp only [withHead, size] <;> omega

/-- What a part saves, the whole saves. -/
theorem saves_withHead {s s' : Fuel} (head : t.head? = some c) (inner : s.Saves c.size d.size s') :
    s.Saves t.size (t.withHead d).size s' := by
  intro enough le
  have below := size_lt_of_mem_children (head?_mem head)
  have same := size_withHead head d
  obtain ⟨enough', spent⟩ := inner enough (by omega)
  exact ⟨enough', by omega⟩

/-- A run at the head of a program. -/
theorem Program.weakHead {s s' : Fuel} (run : t.WeakHead Q s u s') (program : t.Program) :
    t.Simplifies u ∧ s.Saves t.size u.size s' := by
  induction run with
  | stay => exact ⟨program.simplifies, .of_le (Nat.le_refl _) _⟩
  | step head _ next _ _ ih₁ ih₂ =>
    obtain ⟨inner, saved⟩ := ih₁ (program.of_head head)
    have outer := program.withHead head inner
    obtain ⟨contracted, less⟩ := outer.program.contract? next
    obtain ⟨rest, saved'⟩ := ih₂ contracted.program
    exact ⟨outer.trans (contracted.trans rest),
      (saves_withHead head saved).trans (.trans (.step less) saved')⟩
  | starved head _ next _ ih =>
    obtain ⟨inner, saved⟩ := ih (program.of_head head)
    have outer := program.withHead head inner
    obtain ⟨-, less⟩ := outer.program.contract? next
    refine ⟨outer, fun enough le => ?_⟩
    -- all is spent, although there is a node left to save
    have spent := (saves_withHead head saved enough le).2
    simp only at spent
    omega
  | stuck head _ _ _ ih =>
    obtain ⟨inner, saved⟩ := ih (program.of_head head)
    exact ⟨program.withHead head inner, saves_withHead head saved⟩

/-- What is remembered simplifies what it is remembered for. -/
abbrev Remembered (s : Course) : Prop := ∀ u r, s.done u = some r → u.Simplifies r

/-- Going through the parts of a program. -/
theorem Program.traverse {R : Term → Course → Term → Course → Prop} {s s' : Course}
    (parts : t.Traverse R s u s') (program : t.Program) (known : Remembered s)
    (step : ∀ {c d : Term} {s s' : Course}, R c s d s' → c.Program → Remembered s →
      c.Simplifies d ∧ s.fuel.Saves c.size d.size s'.fuel ∧ Remembered s') :
    t.Simplifies u ∧ s.fuel.Saves t.size u.size s'.fuel ∧ Remembered s' := by
  have own : s.fuel.Saves 1 1 s.fuel := .of_le (Nat.le_refl 1) _
  cases program with
  | const v =>
    cases parts
    exact ⟨(Program.const v).simplifies, own, known⟩
  | neg x =>
    cases parts with | neg a
    obtain ⟨simpler, saved, known⟩ := step a x known
    exact ⟨simpler.neg, own.add saved, known⟩
  | arith op l r =>
    cases parts with | binary _ a b
    obtain ⟨left, saved₁, known⟩ := step a l known
    obtain ⟨right, saved₂, known⟩ := step b r known
    exact ⟨left.arith op right, (own.add saved₁).add saved₂, known⟩
  | choose cond yes no =>
    cases parts with | ternary _ a b c
    obtain ⟨decides, saved₁, known⟩ := step a cond known
    obtain ⟨first, saved₂, known⟩ := step b yes known
    obtain ⟨second, saved₃, known⟩ := step c no known
    exact ⟨decides.choose first second, ((own.add saved₁).add saved₂).add saved₃, known⟩

/-- Normalization of a program leaves a program of the same value, and it spends no more steps than
it saves nodes. -/
theorem Program.normalForm {s s' : Course} (run : t.NormalForm Q s r s') (program : t.Program)
    (known : Remembered s) :
    t.Simplifies r ∧ s.fuel.Saves t.size r.size s'.fuel ∧ Remembered s' := by
  induction run with
  | known found =>
    have simpler := known _ _ found
    exact ⟨simpler, .of_le simpler.size_le _, known⟩
  | build _ head _ _ ih =>
    obtain ⟨simpler, saved⟩ := program.weakHead head
    obtain ⟨simpler', saved', known'⟩ :=
      simpler.program.traverse ih known fun ⟨_, step⟩ program known => step program known
    have whole := simpler.trans simpler'
    rw [simpler'.program.collapse]
    refine ⟨whole, ?_, Course.finish_memory known' whole⟩
    rw [Course.finish_fuel]
    exact saved.trans saved'

/-- A budget of a step for each node is enough to normalize a program. -/
theorem Program.normalForm_start {m : Nat} {c : Course} (run : t.NormalForm Q (.start m) r c)
    (program : t.Program) :
    t.Simplifies r ∧ (t.size ≤ m → c.fuel.exhausted = false) := by
  have nothing : Remembered (.start m) := fun _ _ found => by cases found
  obtain ⟨simpler, saved, -⟩ := program.normalForm run nothing
  exact ⟨simpler, fun le => (saved rfl le).1⟩

end Term

end GeneCalculus
