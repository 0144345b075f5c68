import GeneCalculus.Decimal.Rounded
import GeneCalculus.Proofs.Double.Packing

/-!
Rounding of doubles in whole units. The least positive double is the unit; every finite double is a
whole number of units, and so is the exact result of a sum. Its fifty-three leading bits are kept,
and the rest is rounded to nearest, ties to even. Rounding is monotone and keeps powers of two.
-/

namespace GeneCalculus

namespace Decimal

variable {a b den : Nat}

theorem le_roundQuotient : a / den ≤ roundQuotient a den := by
  unfold roundQuotient
  dsimp only
  repeat' split
  all_goals omega

theorem roundQuotient_le : roundQuotient a den ≤ a / den + 1 := by
  unfold roundQuotient
  dsimp only
  repeat' split
  all_goals omega

theorem roundQuotient_mul (pos : 0 < den) : roundQuotient (a * den) den = a := by
  have rest : a * den % den = 0 := Nat.mul_mod_left ..
  unfold roundQuotient
  simp only [rest, Nat.mul_zero, pos, ↓reduceIte]
  exact Nat.mul_div_cancel a pos

theorem roundQuotient_scale {c : Nat} (pos : 0 < c) :
    roundQuotient (a * c) (den * c) = roundQuotient a den := by
  have low : a * c / (den * c) = a / den := Nat.mul_div_mul_right a den pos
  have rest : a * c % (den * c) = a % den * c := Nat.mul_mod_mul_right ..
  have twice : 2 * (a % den * c) = 2 * (a % den) * c := (Nat.mul_assoc ..).symm
  unfold roundQuotient
  simp only [low, rest, twice, Nat.mul_lt_mul_right pos]

theorem roundQuotient_mono (h : a ≤ b) :
    roundQuotient a den ≤ roundQuotient b den := by
  by_cases same : a / den = b / den
  · have rest : a % den ≤ b % den := by
      have ha := Nat.div_add_mod a den
      have hb := Nat.div_add_mod b den
      rw [same] at ha
      omega
    unfold roundQuotient
    simp only [same]
    repeat' split
    all_goals omega
  · have below : a / den < b / den := Nat.lt_of_le_of_ne (Nat.div_le_div_right h) same
    have upper : roundQuotient a den ≤ a / den + 1 := roundQuotient_le
    have lower : b / den ≤ roundQuotient b den := le_roundQuotient
    omega

end Decimal

namespace Double

open Float.Model UnpackedFloat
open Decimal (roundQuotient)

variable {s : Sign} {m n k : Nat} {e : Int}

/-- Bits beyond the fifty-three that are kept. -/
def excess (n : Nat) : Nat := n.log2 - 52

/-- The nearest number of at most fifty-three bits, and zeros behind them. -/
def near (n : Nat) : Nat := roundQuotient n (2 ^ excess n) * 2 ^ excess n

theorem log2_mono (h : m ≤ n) : m.log2 ≤ n.log2 := by
  by_cases zero : m = 0
  · rw [zero]
    exact Nat.zero_le _
  · exact (Nat.le_log2 (by omega)).2 (Nat.le_trans (Nat.log2_self_le zero) h)

theorem log2_shift (pos : m ≠ 0) (k : Nat) : (m * 2 ^ k).log2 = m.log2 + k := by
  apply (Nat.log2_eq_iff (Nat.mul_ne_zero pos (Nat.two_pow_pos k).ne')).2
  have lead : 2 ^ m.log2 ≤ m := Nat.log2_self_le pos
  have next : m < 2 ^ (m.log2 + 1) := Nat.lt_log2_self
  rw [Nat.add_right_comm, Nat.pow_add, Nat.pow_add _ (m.log2 + 1)]
  exact ⟨Nat.mul_le_mul_right _ lead, Nat.mul_lt_mul_of_pos_right next (Nat.two_pow_pos k)⟩

/-- A number of fifty-three bits is kept, with zeros behind it. -/
theorem near_shift (bits : m < 2 ^ 53) (k : Nat) : near (m * 2 ^ k) = m * 2 ^ k := by
  have few : excess (m * 2 ^ k) ≤ k := by
    by_cases zero : m = 0
    · simp [zero, excess]
    · have few := (Nat.log2_lt zero).2 bits
      rw [excess, log2_shift zero]
      omega
  unfold near
  generalize excess (m * 2 ^ k) = x at few
  have split : m * 2 ^ k = m * 2 ^ (k - x) * 2 ^ x := by
    rw [Nat.mul_assoc, ← Nat.pow_add, Nat.sub_add_cancel few]
  rw [split, Decimal.roundQuotient_mul (Nat.two_pow_pos x)]

theorem roundQuotient_two_pow {x : Nat} (h : x ≤ k) :
    roundQuotient (2 ^ k) (2 ^ x) * 2 ^ x = 2 ^ k := by
  have split : 2 ^ k = 2 ^ (k - x) * 2 ^ x := by rw [← Nat.pow_add, Nat.sub_add_cancel h]
  rw [split, Decimal.roundQuotient_mul (Nat.two_pow_pos x)]

/-- Rounding does not go below the leading bit. -/
theorem two_pow_log2_le_near (pos : n ≠ 0) : 2 ^ n.log2 ≤ near n := by
  have lead : 2 ^ n.log2 ≤ n := Nat.log2_self_le pos
  calc
    2 ^ n.log2 = roundQuotient (2 ^ n.log2) (2 ^ excess n) * 2 ^ excess n :=
      (roundQuotient_two_pow (Nat.sub_le ..)).symm
    _ ≤ near n := Nat.mul_le_mul_right _ (Decimal.roundQuotient_mono lead)

/-- Rounding goes up to the next power of two at most. -/
theorem near_le_two_pow_log2 (n : Nat) : near n ≤ 2 ^ (n.log2 + 1) := by
  have next : n ≤ 2 ^ (n.log2 + 1) := Nat.le_of_lt Nat.lt_log2_self
  calc
    near n ≤ roundQuotient (2 ^ (n.log2 + 1)) (2 ^ excess n) * 2 ^ excess n :=
      Nat.mul_le_mul_right _ (Decimal.roundQuotient_mono next)
    _ = 2 ^ (n.log2 + 1) := roundQuotient_two_pow (Nat.le_succ_of_le (Nat.sub_le ..))

theorem near_mono (h : m ≤ n) : near m ≤ near n := by
  by_cases same : m.log2 = n.log2
  · unfold near excess
    rw [same]
    exact Nat.mul_le_mul_right _ (Decimal.roundQuotient_mono h)
  · -- the leading bits lie apart, with a power of two between the numbers
    have below : m.log2 + 1 ≤ n.log2 := Nat.lt_of_le_of_ne (log2_mono h) same
    have nonzero : n ≠ 0 := by
      rintro rfl
      exact absurd below (by simp)
    calc
      near m ≤ 2 ^ (m.log2 + 1) := near_le_two_pow_log2 m
      _ ≤ 2 ^ n.log2 := Nat.pow_le_pow_right (by decide) below
      _ ≤ near n := two_pow_log2_le_near nonzero

theorem near_two_pow (k : Nat) : near (2 ^ k) = 2 ^ k := by
  have kept := near_shift (m := 1) (by decide) k
  rwa [Nat.one_mul] at kept

/-- What `k` shifts leave of `m`: the bits in front, the last bit that was shifted out, and whether
any other was set. -/
theorem shiftRight_exact (m k : Nat) :
    ExtendedMantissa.ofMantissaAndAccuracy m .exact >>> k =
      ⟨m / 2 ^ k, decide (2 ^ k ≤ 2 * (m % 2 ^ k)), decide (2 * (m % 2 ^ k) % 2 ^ k ≠ 0)⟩ := by
  induction k with
  | zero =>
    show ExtendedMantissa.mk m false false = _
    simp [Nat.mod_one]
  | succ k ih =>
    show (ExtendedMantissa.ofMantissaAndAccuracy m .exact >>> k).shiftRightOne = _
    rw [ih]
    unfold ExtendedMantissa.shiftRightOne
    have pos := Nat.two_pow_pos k
    have double : 2 ^ (k + 1) = 2 ^ k * 2 := Nat.pow_succ ..
    have front : m / 2 ^ k / 2 = m / 2 ^ (k + 1) := by rw [double, Nat.div_div_eq_div_mul]
    have rest : m % 2 ^ (k + 1) = 2 ^ k * (m / 2 ^ k % 2) + m % 2 ^ k := by
      rw [double, Nat.mod_mul, Nat.add_comm]
    have small : m % 2 ^ k < 2 ^ k := Nat.mod_lt _ pos
    have bit : m / 2 ^ k % 2 < 2 := Nat.mod_lt _ (by decide)
    rw [rest, ← front, double]
    generalize m / 2 ^ k = q at bit
    generalize m % 2 ^ k = r at small
    generalize 2 ^ k = p at pos small
    have last : q % 2 = 0 ∨ q % 2 = 1 := by omega
    congr 1
    · rcases last with zero | one
      · simp only [zero, Nat.mul_zero, Nat.zero_add, bne_self_eq_false, Bool.false_eq,
          decide_eq_false_iff_not]
        omega
      · simp only [one, Nat.mul_one, Nat.reduceBneDiff, Bool.true_eq, decide_eq_true_eq]
        omega
    · have low : 2 * (p * (q % 2) + r) % (p * 2) = 2 * r := by
        have spread : 2 * (p * (q % 2) + r) = 2 * r + p * 2 * (q % 2) := by ring
        rw [spread, Nat.add_mul_mod_self_left, Nat.mod_eq_of_lt (by omega)]
      rw [low, ← Bool.decide_or]
      apply decide_eq_decide.2
      by_cases half : p ≤ 2 * r
      · exact ⟨fun _ => by omega, fun _ => .inl half⟩
      · rw [Nat.mod_eq_of_lt (by omega)]
        exact or_iff_right half

/-- The kept significand is the rounded quotient. -/
theorem roundedMantissa_exact (m k : Nat) :
    (ExtendedMantissa.ofMantissaAndAccuracy m .exact >>> k).roundedMantissa =
      roundQuotient m (2 ^ k) := by
  rw [shiftRight_exact]
  unfold roundQuotient ExtendedMantissa.roundedMantissa
  have pos := Nat.two_pow_pos k
  have small : m % 2 ^ k < 2 ^ k := Nat.mod_lt _ pos
  generalize m / 2 ^ k = q
  generalize m % 2 ^ k = r at small
  generalize 2 ^ k = p at pos small
  by_cases half : p ≤ 2 * r
  · have low : 2 * r % p = 2 * r - p := by
      rw [Nat.mod_eq_sub_mod half, Nat.mod_eq_of_lt (by omega)]
    by_cases tie : 2 * r = p
    · simp [tie, ExtendedMantissa.accuracy, Accuracy.roundToNearestEven]
      split <;> omega
    · have more : p < 2 * r := by omega
      have odd : 2 * r - p ≠ 0 := by omega
      simp [half, low, odd, more, Nat.lt_asymm more, ExtendedMantissa.accuracy,
        Accuracy.roundToNearestEven]
  · have low : 2 * r % p = 2 * r := Nat.mod_eq_of_lt (by omega)
    have less : 2 * r < p := by omega
    by_cases zero : r = 0
    · simp [zero, pos, ExtendedMantissa.accuracy, Accuracy.roundToNearestEven,
        Nat.pos_iff_ne_zero.1 pos]
    · simp [half, low, zero, less, ExtendedMantissa.accuracy, Accuracy.roundToNearestEven]

theorem targetExponent_binary64 (i : Int) :
    Format.binary64.targetExponent i = max (i - 53) (-1074) := by
  have bits : Format.binary64.mantissaBits = 53 := by decide
  have least : Format.binary64.minExponent = -1074 := by decide
  rw [Format.targetExponent, bits, least]
  omega

/-- The least exponent at which a number of this size has at most fifty-three bits. -/
theorem targetExponent_eq (m : Nat) (e : Int) :
    Format.binary64.targetExponent (totalExponent m e) = max (m.log2 + e - 52) (-1074) := by
  rw [targetExponent_binary64, totalExponent]
  omega

/-- The shifts that bring a number to its exponent. -/
def drop (m : Nat) (e : Int) : Nat := (max (m.log2 + e - 52) (-1074) - e).toNat

theorem shiftToTarget_eq (acc : Accuracy) :
    shiftToTargetExponent Format.binary64 m e acc =
      (ExtendedMantissa.ofMantissaAndAccuracy m acc >>> drop m e, e + drop m e) := by
  unfold shiftToTargetExponent shiftToExponent drop
  simp only [targetExponent_eq]

/-- A number that has its exponent is not shifted. -/
theorem shiftToTarget_canonical (bits : m < 2 ^ 53) (least : -1074 ≤ e) :
    shiftToTargetExponent Format.binary64 m e .exact = (⟨m, false, false⟩, e) := by
  have few : m.log2 ≤ 52 := by
    by_cases zero : m = 0
    · rw [zero]
      exact Nat.zero_le _
    · have := (Nat.log2_lt zero).2 bits
      omega
  have none : drop m e = 0 := by
    unfold drop
    omega
  rw [shiftToTarget_eq, none]
  show (ExtendedMantissa.mk m false false, e + 0) = _
  rw [Int.add_zero]

/-- A carry out of the leading bit is taken back by one more shift. -/
theorem shiftToTarget_carry (least : -1074 ≤ e) :
    shiftToTargetExponent Format.binary64 (2 ^ 53) e .exact = (⟨2 ^ 52, false, false⟩, e + 1) := by
  have one : drop (2 ^ 53) e = 1 := by
    unfold drop
    rw [Nat.log2_two_pow]
    omega
  rw [shiftToTarget_eq, one]
  rfl

/-- The double with a rounded significand. -/
def ofRounded (s : Sign) (r : Nat) (e : Int) : UnpackedFloat :=
  if h : r = 0 then .zero s
  else if r < 2 ^ 53 then .finite s r e (Nat.pos_of_ne_zero h)
  else .finite s (2 ^ 52) (e + 1) (by decide)

theorem mantissa_shiftRight (em : ExtendedMantissa) (k : Nat) :
    (em >>> k).mantissa = em.mantissa / 2 ^ k := by
  induction k with
  | zero => exact (Nat.div_one _).symm
  | succ k ih =>
    show (em >>> k).mantissa / 2 = _
    rw [ih, Nat.div_div_eq_div_mul, Nat.pow_succ]

theorem mantissa_ofMantissaAndAccuracy (acc : Accuracy) :
    (ExtendedMantissa.ofMantissaAndAccuracy m acc).mantissa = m := by
  cases acc with
  | exact => rfl
  | inexact order => cases order <;> rfl

theorem roundedMantissa_bounds (em : ExtendedMantissa) :
    em.mantissa ≤ em.roundedMantissa ∧ em.roundedMantissa ≤ em.mantissa + 1 := by
  obtain ⟨m, round, sticky⟩ := em
  cases round <;> cases sticky <;>
    simp only [ExtendedMantissa.roundedMantissa, ExtendedMantissa.accuracy,
      Accuracy.roundToNearestEven] <;> omega

theorem div_two_pow_drop_lt (m : Nat) (e : Int) : m / 2 ^ drop m e < 2 ^ 53 := by
  apply (Nat.div_lt_iff_lt_mul (Nat.two_pow_pos _)).2
  rw [← Nat.pow_add]
  apply Nat.lt_of_lt_of_le Nat.lt_log2_self
  apply Nat.pow_le_pow_right (by decide)
  unfold drop
  omega

/-- Where fifty-three bits are left, the first of them is set. -/
theorem two_pow_le_div_two_pow_drop (pos : m ≠ 0) (left : 52 + drop m e = m.log2) :
    2 ^ 52 ≤ m / 2 ^ drop m e := by
  apply (Nat.le_div_iff_mul_le (Nat.two_pow_pos _)).2
  rw [← Nat.pow_add, left]
  exact Nat.log2_self_le pos

/-- Rounding shifts once, rounds, and takes back a carry. -/
theorem roundWithAccuracy_eq (s : Sign) (m : Nat) (e : Int) (acc : Accuracy) :
    roundWithAccuracy Format.binary64 s m e acc =
      ofRounded s (ExtendedMantissa.ofMantissaAndAccuracy m acc >>> drop m e).roundedMantissa
        (e + drop m e) := by
  have least : -1074 ≤ e + drop m e := by
    unfold drop
    omega
  have front := roundedMantissa_bounds (ExtendedMantissa.ofMantissaAndAccuracy m acc >>> drop m e)
  rw [mantissa_shiftRight, mantissa_ofMantissaAndAccuracy] at front
  have bits := div_two_pow_drop_lt m e
  unfold roundWithAccuracy
  rw [shiftToTarget_eq]
  dsimp only
  generalize (ExtendedMantissa.ofMantissaAndAccuracy m acc >>> drop m e).roundedMantissa = r
    at front
  unfold ofRounded
  by_cases kept : r < 2 ^ 53
  · rw [shiftToTarget_canonical kept least]
    simp only [kept, ↓reduceIte]
  · have carry : r = 2 ^ 53 := by omega
    rw [carry, shiftToTarget_carry least]
    rfl

/-- A number in units of the least positive double. -/
def scaled (m : Nat) (e : Int) : Nat := m * 2 ^ (e + 1074).toNat

theorem excess_scaled (pos : m ≠ 0) (least : -1074 ≤ e) :
    (excess (scaled m e) : Int) = max (m.log2 + e - 52) (-1074) + 1074 := by
  have bits : (scaled m e).log2 = m.log2 + (e + 1074).toNat := by
    unfold scaled
    rw [log2_shift pos]
  unfold excess
  omega

/-- On a fine enough grid the nearest double is found by one rounded shift. -/
theorem near_scaled (pos : m ≠ 0) (least : -1074 ≤ e) (fine : e ≤ max (m.log2 + e - 52) (-1074)) :
    near (scaled m e) =
      roundQuotient m (2 ^ drop m e) * 2 ^ (e + drop m e + 1074).toNat := by
  have drops : (drop m e : Int) = max (m.log2 + e - 52) (-1074) - e := by
    unfold drop
    omega
  have places : excess (scaled m e) = drop m e + (e + 1074).toNat := by
    have := excess_scaled pos least
    omega
  have shifts : drop m e + (e + 1074).toNat = (e + drop m e + 1074).toNat := by omega
  unfold near
  rw [places, Nat.pow_add, scaled, Decimal.roundQuotient_scale (Nat.two_pow_pos _),
    ← Nat.pow_add, shifts]

/-- Rounding from a fine enough grid is rounding to nearest. -/
theorem roundWithAccuracy_near (pos : 0 < m) (least : -1074 ≤ e)
    (fine : e ≤ max (m.log2 + e - 52) (-1074)) :
    ∃ r e' h, roundWithAccuracy Format.binary64 s m e .exact = .finite s r e' h ∧
      Canonical r e' ∧ scaled r e' = near (scaled m e) := by
  have drops : (drop m e : Int) = max (m.log2 + e - 52) (-1074) - e := by
    unfold drop
    omega
  have front : m / 2 ^ drop m e ≤ roundQuotient m (2 ^ drop m e) := Decimal.le_roundQuotient
  have bits := div_two_pow_drop_lt m e
  have upper : roundQuotient m (2 ^ drop m e) ≤ m / 2 ^ drop m e + 1 := Decimal.roundQuotient_le
  -- either fifty-three bits are left, or nothing was shifted out
  have full : 2 ^ 52 ≤ m / 2 ^ drop m e ∨ e + drop m e = -1074 ∧ drop m e = 0 := by
    by_cases least' : m.log2 + e - 52 ≤ -1074
    · exact .inr (by omega)
    · exact .inl (two_pow_le_div_two_pow_drop (by omega) (by omega))
  have positive : 0 < m / 2 ^ drop m e := by
    rcases full with full | ⟨-, none⟩
    · omega
    · rw [none, Nat.pow_zero, Nat.div_one]
      exact pos
  rw [roundWithAccuracy_eq, roundedMantissa_exact, near_scaled (by omega) least fine]
  generalize roundQuotient m (2 ^ drop m e) = r at front upper
  unfold ofRounded
  by_cases kept : r < 2 ^ 53
  · refine ⟨r, e + drop m e, by omega, ?_, ⟨kept, by omega, by omega⟩, rfl⟩
    rw [dif_neg (by omega), if_pos kept]
  · have carry : r = 2 ^ 53 := by omega
    refine ⟨2 ^ 52, e + drop m e + 1, by decide, ?_, ⟨by decide, by omega, .inl (by decide)⟩, ?_⟩
    · rw [dif_neg (by omega), if_neg kept]
    · have next : (e + drop m e + 1 + 1074).toNat = (e + drop m e + 1074).toNat + 1 := by omega
      rw [scaled, next, carry, Nat.pow_succ]
      ring

end Double

end GeneCalculus
