import Mathlib.Algebra.Ring.Int.Defs
import GeneCalculus.Expr.Operator

/-!
Operators are exact or undefined. An operator gives the value that it has over all integers, where
64 bits hold that value, and it gives nothing anywhere else; no value is ever wrapped.
-/

namespace GeneCalculus

/-- Division that rounds toward zero: the remainder is smaller than the divisor, and unless it is
zero it has the sign of the dividend. -/
structure Division (a b q r : Int) : Prop where
  exact : a = q * b + r
  small : r.natAbs < b.natAbs
  sign : r = 0 ∨ r.sign = a.sign

namespace Division

variable {a b q r : Int}

theorem divisor_ne_zero (h : Division a b q r) : b ≠ 0 := by
  rintro rfl
  exact absurd h.small (Nat.not_lt_zero _)

/-- There is one quotient and one remainder. -/
theorem unique (h : Division a b q r) : a.tdiv b = q ∧ a.tmod b = r := by
  have nonzero := h.divisor_ne_zero
  have small : -(b.natAbs : Int) < r ∧ r < b.natAbs := by
    have := h.small
    omega
  have whole : r + b * q = a := by
    rw [Int.mul_comm, Int.add_comm]
    exact h.exact.symm
  rcases Int.le_total 0 a with front | back
  · have low : 0 ≤ r := by
      rcases h.sign with zero | same
      · omega
      · exact Int.sign_nonneg_iff.1 (same ▸ Int.sign_nonneg_iff.2 front)
    exact (Int.tdiv_tmod_unique front nonzero).2 ⟨whole, low, small.2⟩
  · have high : r ≤ 0 := by
      rcases h.sign with zero | same
      · omega
      · exact Int.sign_nonpos_iff.1 (same ▸ Int.sign_nonpos_iff.2 back)
    exact (Int.tdiv_tmod_unique' back nonzero).2 ⟨whole, small.1, high⟩

theorem tdiv_tmod (a : Int) (nonzero : b ≠ 0) : Division a b (a.tdiv b) (a.tmod b) where
  exact := (Int.tdiv_mul_add_tmod a b).symm
  small := by
    rw [Int.natAbs_tmod]
    exact Nat.mod_lt _ (Int.natAbs_pos.2 nonzero)
  sign := by
    have sign := Int.sign_tmod a b
    split at sign
    · exact .inl (Int.sign_eq_zero_iff_zero.1 sign)
    · exact .inr sign

end Division

/-- Whether 64 bits hold an integer. -/
def Fits (n : Int) : Prop := -2 ^ 63 ≤ n ∧ n < 2 ^ 63

section

variable {n : Int} {x y : Int64}

theorem toInt_ne_zero : y.toInt ≠ 0 ↔ ¬y = 0 := not_congr (Int64.toInt_inj (y := 0))

theorem fits_toInt (x : Int64) : Fits x.toInt := ⟨x.le_toInt, x.toInt_lt⟩

theorem Fits.exists_toInt (h : Fits n) : ∃ c : Int64, c.toInt = n :=
  ⟨.ofInt n, Int64.toInt_ofInt_of_le h.1 h.2⟩

/-- A quotient fits, except that of the least integer and minus one. -/
theorem fits_tdiv_iff (nonzero : y.toInt ≠ 0) :
    Fits (x.toInt.tdiv y.toInt) ↔ ¬(x.toInt = -2 ^ 63 ∧ y.toInt = -1) := by
  have ⟨low, high⟩ := fits_toInt x
  generalize x.toInt = a at low high
  generalize y.toInt = b at nonzero
  have size : (a.tdiv b).natAbs = a.natAbs / b.natAbs := Int.natAbs_tdiv a b
  by_cases one : b.natAbs = 1
  · rcases (show b = 1 ∨ b = -1 by omega) with rfl | rfl
    · rw [Int.tdiv_one, Fits]
      omega
    · rw [Int.tdiv_neg, Int.tdiv_one, Fits]
      omega
  · have half : a.natAbs / b.natAbs ≤ a.natAbs / 2 := Nat.div_le_div_left (by omega) (by decide)
    rw [Fits]
    omega

/-- A remainder fits. -/
theorem fits_tmod (nonzero : y.toInt ≠ 0) : Fits (x.toInt.tmod y.toInt) := by
  have ⟨low, high⟩ := fits_toInt y
  have small := (Division.tdiv_tmod x.toInt nonzero).small
  rw [Fits]
  omega

theorem division_of_toInt {q r : Int64} (nonzero : y.toInt ≠ 0)
    (quotient : q.toInt = x.toInt.tdiv y.toInt) (rest : r.toInt = x.toInt.tmod y.toInt) :
    Division x.toInt y.toInt q.toInt r.toInt := by
  rw [quotient, rest]
  exact .tdiv_tmod _ nonzero

/-- Where the divisor is not zero and the quotient fits, there is a division in 64 bits. -/
theorem exists_division (nonzero : y.toInt ≠ 0) (fits : ¬(x.toInt = -2 ^ 63 ∧ y.toInt = -1)) :
    ∃ q r : Int64, Division x.toInt y.toInt q.toInt r.toInt := by
  obtain ⟨q, quotient⟩ := ((fits_tdiv_iff nonzero).2 fits).exists_toInt
  obtain ⟨r, rest⟩ := (fits_tmod (x := x) nonzero).exists_toInt
  exact ⟨q, r, division_of_toInt nonzero quotient rest⟩

end

namespace Operator

/-- What an operator gives for two constants, with integers and truth values as in mathematics. -/
inductive Yields : Operator → Literal → Literal → Literal → Prop
  | add {a b c : Int64} : c.toInt = a.toInt + b.toInt → Yields add (.int a) (.int b) (.int c)
  | sub {a b c : Int64} : c.toInt = a.toInt - b.toInt → Yields sub (.int a) (.int b) (.int c)
  | mul {a b c : Int64} : c.toInt = a.toInt * b.toInt → Yields mul (.int a) (.int b) (.int c)
  | div {a b q r : Int64} : Division a.toInt b.toInt q.toInt r.toInt →
      Yields div (.int a) (.int b) (.int q)
  | mod {a b q r : Int64} : Division a.toInt b.toInt q.toInt r.toInt →
      Yields mod (.int a) (.int b) (.int r)
  | lt {a b : Int64} {t : Bool} : (t ↔ a.toInt < b.toInt) → Yields lt (.int a) (.int b) (.bool t)
  | gt {a b : Int64} {t : Bool} : (t ↔ b.toInt < a.toInt) → Yields gt (.int a) (.int b) (.bool t)
  | eq {a b : Literal} {t : Bool} : (t ↔ a = b) → Yields eq a b (.bool t)
  | and {s t u : Bool} : (u ↔ s ∧ t) → Yields and (.bool s) (.bool t) (.bool u)
  | or {s t u : Bool} : (u ↔ s ∨ t) → Yields or (.bool s) (.bool t) (.bool u)

/-- When an operator gives something: its operands are of its kind, and its value exists and fits.
The only quotient that does not fit is that of the least integer and minus one. -/
def Defined : Operator → Literal → Literal → Prop
  | add, .int a, .int b => Fits (a.toInt + b.toInt)
  | sub, .int a, .int b => Fits (a.toInt - b.toInt)
  | mul, .int a, .int b => Fits (a.toInt * b.toInt)
  | div, .int a, .int b | mod, .int a, .int b =>
    b.toInt ≠ 0 ∧ ¬(a.toInt = -2 ^ 63 ∧ b.toInt = -1)
  | lt, .int _, .int _ | gt, .int _, .int _ => True
  | eq, _, _ => True
  | and, .bool _, .bool _ | or, .bool _, .bool _ => True
  | _, _, _ => False

variable {op : Operator} {a b v : Literal} {n : Int} {x y : Int64}

/-- An integer is kept exactly if it fits. -/
theorem fit?_eq_some_iff : fit? n = some v ↔ ∃ c : Int64, c.toInt = n ∧ v = .int c := by
  unfold fit?
  split
  · rename_i bounds
    have whole : (Int64.ofInt n).toInt = n :=
      Int64.toInt_ofInt_of_le bounds.1 (Int.lt_add_one_of_le bounds.2)
    constructor
    · rintro ⟨⟩
      exact ⟨_, whole, rfl⟩
    · rintro ⟨c, rfl, rfl⟩
      rw [Int64.ofInt_toInt]
  · rename_i outside
    refine iff_of_false nofun ?_
    rintro ⟨c, rfl, -⟩
    exact outside ⟨c.minValue_le_toInt, c.toInt_le⟩

theorem fit?_toInt (x : Int64) : fit? x.toInt = some (.int x) := fit?_eq_some_iff.2 ⟨x, rfl, rfl⟩

theorem decide_eq_of_iff {p : Prop} [Decidable p] {t : Bool} (h : t ↔ p) : decide p = t := by
  rw [Bool.eq_iff_iff, decide_eq_true_iff]
  exact h.symm

/-- What is given is right. -/
theorem yields_of_eval (given : op.eval a b = some v) : op.Yields a b v := by
  -- the cases are those of `eval`, in its order; the last is that of operands of other kinds
  fun_cases Operator.eval op a b with
  | case1 x y =>
    obtain ⟨c, sum, rfl⟩ := fit?_eq_some_iff.1 given
    exact .add sum
  | case2 x y =>
    obtain ⟨c, difference, rfl⟩ := fit?_eq_some_iff.1 given
    exact .sub difference
  | case3 x y =>
    obtain ⟨c, product, rfl⟩ := fit?_eq_some_iff.1 given
    exact .mul product
  | case4 x | case6 x =>
    rw [Operator.eval, if_pos rfl] at given
    cases given
  | case5 x y nonzero =>
    rw [Operator.eval, if_neg nonzero] at given
    obtain ⟨q, quotient, rfl⟩ := fit?_eq_some_iff.1 given
    obtain ⟨r, rest⟩ := (fits_tmod (x := x) (toInt_ne_zero.2 nonzero)).exists_toInt
    exact .div (division_of_toInt (toInt_ne_zero.2 nonzero) quotient rest)
  | case7 x y nonzero =>
    rw [Operator.eval, if_neg nonzero] at given
    obtain ⟨w, kept, given⟩ := Option.bind_eq_some_iff.1 given
    obtain ⟨q, quotient, rfl⟩ := fit?_eq_some_iff.1 kept
    obtain ⟨r, rest, rfl⟩ := fit?_eq_some_iff.1 given
    exact .mod (division_of_toInt (toInt_ne_zero.2 nonzero) quotient rest)
  | case8 x y =>
    cases given
    exact .lt decide_eq_true_iff
  | case9 x y =>
    cases given
    exact .gt decide_eq_true_iff
  | case10 =>
    cases given
    exact .eq decide_eq_true_iff
  | case11 s t =>
    cases given
    exact .and Bool.and_eq_true_iff
  | case12 s t =>
    cases given
    exact .or Bool.or_eq_true_iff
  | case13 =>
    rw [Operator.eval] at given
    · cases given
    all_goals assumption

/-- What is right is given. -/
theorem Yields.eval (h : op.Yields a b v) : op.eval a b = some v := by
  cases h with
  | add sum => exact fit?_eq_some_iff.2 ⟨_, sum, rfl⟩
  | sub difference => exact fit?_eq_some_iff.2 ⟨_, difference, rfl⟩
  | mul product => exact fit?_eq_some_iff.2 ⟨_, product, rfl⟩
  | div division =>
    obtain ⟨quotient, -⟩ := division.unique
    rw [Operator.eval, if_neg (toInt_ne_zero.1 division.divisor_ne_zero), quotient, fit?_toInt]
  | mod division =>
    obtain ⟨quotient, rest⟩ := division.unique
    rw [Operator.eval, if_neg (toInt_ne_zero.1 division.divisor_ne_zero), quotient, rest, fit?_toInt,
      fit?_toInt, Option.bind_some]
  | lt truth => rw [Operator.eval, decide_eq_of_iff truth]
  | gt truth => rw [Operator.eval, decide_eq_of_iff truth]
  | eq truth => rw [Operator.eval, decide_eq_of_iff truth]
  | and truth => rw [Operator.eval, Bool.eq_iff_iff.2 (truth.trans Bool.and_eq_true_iff.symm)]
  | or truth => rw [Operator.eval, Bool.eq_iff_iff.2 (truth.trans Bool.or_eq_true_iff.symm)]

theorem Yields.defined (h : op.Yields a b v) : op.Defined a b := by
  cases h with
  | @add x y c sum => exact (congrArg Fits sum).mp (fits_toInt c)
  | @sub x y c difference => exact (congrArg Fits difference).mp (fits_toInt c)
  | @mul x y c product => exact (congrArg Fits product).mp (fits_toInt c)
  | @div x y q r division | @mod x y q r division =>
    have nonzero := division.divisor_ne_zero
    have fits := fits_toInt q
    rw [← division.unique.1] at fits
    exact ⟨nonzero, (fits_tdiv_iff nonzero).1 fits⟩
  | lt | gt | eq | and | or => trivial

theorem Defined.exists_yields (h : op.Defined a b) : ∃ v, op.Yields a b v := by
  fun_cases Operator.Defined op a b with
  | case1 x y =>
    obtain ⟨c, sum⟩ := Fits.exists_toInt h
    exact ⟨_, .add sum⟩
  | case2 x y =>
    obtain ⟨c, difference⟩ := Fits.exists_toInt h
    exact ⟨_, .sub difference⟩
  | case3 x y =>
    obtain ⟨c, product⟩ := Fits.exists_toInt h
    exact ⟨_, .mul product⟩
  | case4 x y =>
    obtain ⟨q, r, division⟩ := exists_division h.1 h.2
    exact ⟨_, .div division⟩
  | case5 x y =>
    obtain ⟨q, r, division⟩ := exists_division h.1 h.2
    exact ⟨_, .mod division⟩
  | case6 x y => exact ⟨_, .lt decide_eq_true_iff⟩
  | case7 x y => exact ⟨_, .gt decide_eq_true_iff⟩
  | case8 => exact ⟨_, .eq decide_eq_true_iff⟩
  | case9 s t => exact ⟨_, .and Bool.and_eq_true_iff⟩
  | case10 s t => exact ⟨_, .or Bool.or_eq_true_iff⟩
  | case11 =>
    rw [Operator.Defined] at h
    · cases h
    all_goals assumption

/-- An operator gives exactly the value that it has in mathematics. It gives one wherever its
operands are of its kind and 64 bits hold the value; for a division by zero, for one of the least
integer by minus one, and for operands of other kinds it gives nothing. -/
theorem eval_exact (op : Operator) (a b : Literal) :
    (∀ v, op.eval a b = some v ↔ op.Yields a b v) ∧ (op.eval a b = none ↔ ¬op.Defined a b) := by
  refine ⟨fun v => ⟨yields_of_eval, Yields.eval⟩, fun refused defined => ?_, fun undefined => ?_⟩
  · obtain ⟨v, yields⟩ := defined.exists_yields
    rw [yields.eval] at refused
    cases refused
  · cases given : op.eval a b with
    | none => rfl
    | some v => exact absurd (yields_of_eval given).defined undefined

example : Operator.div.eval (.int (-7)) (.int 2) = some (.int (-3)) ∧
    Operator.mod.eval (.int (-7)) (.int 2) = some (.int (-1)) ∧
    Operator.mod.eval (.int Int64.minValue) (.int (-1)) = none := by decide

end Operator

end GeneCalculus
