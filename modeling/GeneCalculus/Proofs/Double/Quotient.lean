import GeneCalculus.Proofs.Double.Arithmetic

/-!
Quotients of doubles that are not larger than one. The quotient of two significands is computed with
bits enough for rounding, and its exponent stays small.
-/

namespace GeneCalculus.Double

open Float.Model UnpackedFloat

variable {u v : UnpackedFloat} {s t : Sign} {m n r : Nat} {d e : Int} {w z : Int}

theorem ofRounded_within (full : 2 ^ 52 ≤ r ∨ e = -1074) (least : -1074 ≤ e) :
    Within (e + 1) (ofRounded s r e) := by
  unfold ofRounded
  split
  · exact .zero s
  · split
    · rename_i kept
      exact .finite s r e _ ⟨kept, least, full⟩ (by omega)
    · exact .finite s (2 ^ 52) (e + 1) _ ⟨by decide, by omega, .inl (Nat.le_refl _)⟩ (Int.le_refl _)

/-- A number with bits enough is rounded to fifty-three of them. -/
theorem roundWithAccuracy_within (acc : Accuracy) (wide : 52 ≤ m.log2 ∨ e ≤ -1074) :
    Within (e + drop m e + 1) (roundWithAccuracy Format.binary64 s m e acc) := by
  have front := roundedMantissa_bounds (ExtendedMantissa.ofMantissaAndAccuracy m acc >>> drop m e)
  rw [mantissa_shiftRight, mantissa_ofMantissaAndAccuracy] at front
  have bits := div_two_pow_drop_lt m e
  have full : 2 ^ 52 ≤ m / 2 ^ drop m e ∨ e + drop m e = -1074 := by
    by_cases low : m.log2 + e - 52 ≤ -1074
    · right
      unfold drop
      omega
    · left
      have all : 52 + drop m e = m.log2 := by
        unfold drop
        omega
      refine two_pow_le_div_two_pow_drop ?_ all
      rintro rfl
      simp at all
  have least : -1074 ≤ e + drop m e := by
    unfold drop
    omega
  rw [roundWithAccuracy_eq]
  apply ofRounded_within _ least
  omega

/-- The exponent of a quotient before it is rounded. -/
theorem quotientExponent (m n : Nat) (e d : Int) :
    min (e - d) (Format.binary64.targetExponent (totalExponent m e - totalExponent n d)) =
      min (e - d) (max (m.log2 + e - (n.log2 + d) - 53) (-1074)) := by
  rw [targetExponent_binary64, totalExponent, totalExponent]
  omega

/-- Of two values in the same units, the first no larger, the shifted significands are in the order
that the shifts leave. -/
theorem shifted_le {i k : Nat} (le : scaled m e ≤ scaled n d)
    (places : (e + 1074).toNat + i = k + (d + 1074).toNat) : m * 2 ^ k ≤ 2 ^ i * n := by
  apply Nat.le_of_mul_le_mul_right _ (Nat.two_pow_pos (d + 1074).toNat)
  calc
    m * 2 ^ k * 2 ^ (d + 1074).toNat = scaled m e * 2 ^ i := by
      rw [scaled, Nat.mul_assoc, ← Nat.pow_add, ← places, Nat.pow_add, Nat.mul_assoc]
    _ ≤ scaled n d * 2 ^ i := Nat.mul_le_mul_right _ le
    _ = 2 ^ i * n * 2 ^ (d + 1074).toNat := by
      rw [scaled]
      ring

/-- A quotient has the bits by which its dividend is longer than its divisor. -/
theorem le_log2_quotient {i k : Nat} (pos : 0 < m) (pos' : 0 < n)
    (longer : i + (n.log2 + 1) ≤ m.log2 + k) : i ≤ (m * 2 ^ k / n).log2 := by
  have enough : 2 ^ i ≤ m * 2 ^ k / n := by
    apply (Nat.le_div_iff_mul_le pos').2
    have front : 2 ^ m.log2 ≤ m := Nat.log2_self_le (by omega)
    calc
      2 ^ i * n ≤ 2 ^ i * 2 ^ (n.log2 + 1) :=
        Nat.mul_le_mul_left _ (Nat.le_of_lt Nat.lt_log2_self)
      _ = 2 ^ (i + (n.log2 + 1)) := (Nat.pow_add ..).symm
      _ ≤ 2 ^ (m.log2 + k) := Nat.pow_le_pow_right (by decide) longer
      _ = 2 ^ m.log2 * 2 ^ k := Nat.pow_add ..
      _ ≤ m * 2 ^ k := Nat.mul_le_mul_right _ front
  have some := Nat.two_pow_pos i
  exact (Nat.le_log2 (by omega)).2 enough

theorem div_within (hm : Canonical m e) (hn : Canonical n d) (pos : 0 < m) (pos' : 0 < n)
    (le : scaled m e ≤ scaled n d) :
    Within (-51) (UnpackedFloat.div Format.binary64 (.finite s m e pos) (.finite t n d pos')) := by
  have hm := hm.least
  have hn := hn.least
  have leads : m.log2 + e ≤ n.log2 + d := by
    have lead := log2_mono le
    rw [scaled, scaled, log2_shift (by omega), log2_shift (by omega)] at lead
    omega
  show Within (-51) (roundWithAccuracy Format.binary64 (s / t)
    (divCore Format.binary64 m e n d).1 (divCore Format.binary64 m e n d).2.1
    (divCore Format.binary64 m e n d).2.2)
  unfold divCore
  simp only [quotientExponent, Nat.shiftLeft_eq]
  generalize exponent : min (e - d) (max (m.log2 + e - (n.log2 + d) - 53) (-1074)) = j
  generalize shifts : (e - d - j).toNat = k
  generalize accuracyOfFraction (m * 2 ^ k % n) n = acc
  have small : m * 2 ^ k ≤ 2 ^ (-j).toNat * n := shifted_le le (by omega)
  have lead : (m * 2 ^ k / n).log2 ≤ (-j).toNat := by
    have := log2_mono (Nat.div_le_of_le_mul (Nat.mul_comm n _ ▸ small))
    rwa [Nat.log2_two_pow] at this
  have wide : 52 ≤ (m * 2 ^ k / n).log2 ∨ j ≤ -1074 := by
    by_cases low : j ≤ -1074
    · exact .inr low
    · exact .inl (le_log2_quotient pos pos' (by omega))
  apply (roundWithAccuracy_within acc wide).mono
  unfold drop
  omega

/-- A quotient of two sizes, the first no larger, is no number or not much larger than one. -/
theorem quotient_within (hu : Nearest w u) (hv : Nearest z v) (nonzero : z ≠ 0)
    (le : w.natAbs ≤ z.natAbs) :
    UnpackedFloat.div Format.binary64 u v = .notANumber ∨
      Within (-51) (UnpackedFloat.div Format.binary64 u v) := by
  have sizes := near_mono le
  cases hv with
  | zero t none => exact absurd none nonzero
  | finite t n d pos' canonical' small' size' =>
    right
    cases hu with
    | zero s => exact .zero _
    | finite s m e pos canonical small size =>
      exact div_within canonical canonical' pos pos' (by omega)
    | infinity s large =>
      have := large n d canonical' small'
      omega
  | infinity t large =>
    cases hu with
    | zero s => exact .inr (.zero _)
    | finite => exact .inr (.zero _)
    | infinity s => exact .inl rfl

end GeneCalculus.Double
