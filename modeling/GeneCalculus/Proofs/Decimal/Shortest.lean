import GeneCalculus.Decimal.Shortest
import GeneCalculus.Proofs.Double.Value

/-!
The shortest decimal of a double. A finite double is the natural times a power of two that it
unpacks to, and the shortest decimal is no larger than the reals that round to the double.
-/

namespace GeneCalculus.Decimal

open Float.Model UnpackedFloat Double

variable {b : Binary} {d : Scaled} {tie : Tie}

/-- The fields of a word as naturals. -/
theorem fields_toNat (w : UInt64) :
    ((w >>> 52) &&& 0x7ff).toNat =
        (@unpackExponent Format.binary64 w.toBitVec).toNat ∧
      (w &&& 0xfffffffffffff).toNat =
        (@unpackMantissa Format.binary64 w.toBitVec).toNat := by
  constructor
  · simp only [unpackExponent, UInt64.toNat_and, UInt64.toNat_shiftRight, BitVec.toNat_cast,
      BitVec.extractLsb_toNat]
    exact Nat.and_two_pow_sub_one_eq_mod _ 11
  · simp only [unpackMantissa, UInt64.toNat_and, BitVec.toNat_cast, BitVec.extractLsb_toNat]
    exact Nat.and_two_pow_sub_one_eq_mod _ 52

/-- A finite double is a significand of at most fifty-three bits and an exponent that is not too
large. Any other double is of another kind. -/
theorem kind_of (x : Float) :
    (∃ negative b, Kind.of x = .finite negative b ∧ x.isFinite ∧ b.m < 2 ^ 53 ∧ b.q ≤ 971) ∨
      (∀ negative b, Kind.of x ≠ .finite negative b) ∧ ¬x.isFinite := by
  have ⟨exponent, fraction⟩ := fields_toNat x.toBits
  have parts : packComponents Format.binary64 _ _ _ = x.toBits.toBitVec :=
    packComponents_unpackSign_unpackExponent_unpackMantissa _
  have status : x.isFinite =
      (UnpackedFloat.unpack Format.binary64 x.toBits.toBitVec).isFinite := rfl
  rw [← parts, unpack_packComponents] at status
  rw [status]
  unfold Kind.of
  simp only [exponent, fraction]
  generalize @unpackExponent Format.binary64 x.toBits.toBitVec = field
  generalize @unpackMantissa Format.binary64 x.toBits.toBitVec = significand
  have small : significand.toNat < 2 ^ 52 := significand.isLt
  by_cases ones : field = -1#11
  · right
    rw [if_pos ones, if_pos (by rw [ones]; rfl)]
    constructor
    · intro negative b
      split <;> nofun
    · split <;> exact Bool.false_ne_true
  · have below : field.toNat ≠ 2047 := fun same => ones (BitVec.eq_of_toNat_eq same)
    have most : field.toNat < 2048 := field.isLt
    rw [if_neg ones, if_neg below]
    by_cases zero : field = 0#11
    · rw [if_pos zero, if_pos (by rw [zero]; rfl)]
      refine .inl ⟨_, _, rfl, ?_, by dsimp only; omega, by dsimp only; omega⟩
      split <;> rfl
    · have above : field.toNat ≠ 0 := fun same => zero (BitVec.eq_of_toNat_eq same)
      rw [if_neg zero, if_neg above]
      exact .inl ⟨_, _, rfl, rfl, by dsimp only; omega, by dsimp only; omega⟩

/-- What a decimal stands for. -/
def Scaled.value (d : Scaled) : ℚ := d.digits * 10 ^ d.exponent

/-- The upper end of the reals that round to a double. -/
def Binary.top (b : Binary) : ℚ := (4 * b.m + 2) * 2 ^ (b.q - 2)

theorem zpow_mul_toNat_neg {c : ℚ} (nonzero : c ≠ 0) (i : ℤ) :
    c ^ i * c ^ (-i).toNat = c ^ i.toNat := by
  rw [← zpow_natCast, ← zpow_natCast, ← zpow_add₀ nonzero]
  congr 1
  omega

theorem compareScaled_ne_gt {a n : Nat} {i j : Int} :
    compareScaled a i n j ≠ .gt ↔ (a * 10 ^ i : ℚ) ≤ n * 2 ^ j := by
  have tens := zpow_mul_toNat_neg (c := 10) (by norm_num) i
  have twos := zpow_mul_toNat_neg (c := 2) (by norm_num) j
  have pos : (0 : ℚ) < 10 ^ (-i).toNat * 2 ^ (-j).toNat := by positivity
  have left : (a * 10 ^ i * (10 ^ (-i).toNat * 2 ^ (-j).toNat) : ℚ) =
      (a * 10 ^ i.toNat * 2 ^ (-j).toNat : Nat) := by
    push_cast
    rw [← tens]
    ring
  have right : (n * 2 ^ j * (10 ^ (-i).toNat * 2 ^ (-j).toNat) : ℚ) =
      (n * 2 ^ j.toNat * 10 ^ (-i).toNat : Nat) := by
    push_cast
    rw [← twos]
    ring
  rw [← mul_le_mul_iff_of_pos_right pos, left, right, Nat.cast_le]
  exact Nat.compare_ne_gt

theorem compareScaled_zero {m : Nat} {i j : Int} (pos : 0 < m) : compareScaled 0 i m j = .lt := by
  apply Nat.compare_eq_lt.2
  rw [Nat.zero_mul, Nat.zero_mul]
  exact Nat.mul_pos (Nat.mul_pos pos (Nat.two_pow_pos _)) (Nat.pow_pos (by decide))

/-- A decimal other than zero that is no larger than what rounds to a double. -/
structure Under (b : Binary) (d : Scaled) : Prop where
  pos : 0 < d.digits
  le : d.value ≤ b.top

theorem value_div_ten {n : Nat} (even : n % 10 = 0) (e : Int) :
    Scaled.value ⟨n / 10, e + 1⟩ = Scaled.value ⟨n, e⟩ := by
  have tens : n = n / 10 * 10 := by omega
  unfold Scaled.value
  dsimp only
  rw [zpow_add_one₀ (by norm_num)]
  conv =>
    rhs
    rw [tens]
  push_cast
  ring

theorem Under.stripZeros (h : Under b d) (fuel : Nat) : Under b (stripZeros fuel d) := by
  induction fuel generalizing d with
  | zero => exact h
  | succ fuel ih =>
    unfold Decimal.stripZeros
    split
    · rename_i more
      have same := value_div_ten more.2 d.exponent
      exact ih ⟨by show 0 < d.digits / 10; omega, same ▸ h.le⟩
    · exact h

theorem under_of_holds {digits : Nat} {exponent : Int} (pos : 0 < b.m)
    (h : b.holds digits exponent) : Under b ⟨digits, exponent⟩ := by
  unfold Binary.holds at h
  rw [Bool.and_eq_true] at h
  obtain ⟨atLow, atHigh⟩ := h
  constructor
  · apply Nat.pos_of_ne_zero
    rintro rfl
    rw [compareScaled_zero (by split <;> omega)] at atLow
    simp at atLow
  · have below : compareScaled digits exponent (4 * b.m + 2) (b.q - 2) ≠ .gt := by
      intro above
      rw [above] at atHigh
      simp at atHigh
    have le := compareScaled_ne_gt.1 below
    push_cast at le
    exact le

theorem under_of_nearest? {exponent : Int} (pos : 0 < b.m) (h : nearest? tie b exponent = some d) :
    Under b d := by
  have held : ∀ {digits e}, (if b.holds digits exponent then some ⟨digits, exponent⟩ else none) =
      some e → Under b e := by
    intro digits e kept
    split at kept
    · rename_i holds
      cases kept
      exact under_of_holds pos holds
    · cases kept
  unfold nearest? at h
  dsimp only at h
  split at h
  · rename_i lower upper below above
    have either : d = lower ∨ d = upper := by grind
    rcases either with rfl | rfl
    · exact held below
    · exact held above
  · rename_i below _
    cases h
    exact held below
  · exact held h

theorem under_exact (pos : 0 < b.m) :
    Under b ⟨b.m * 2 ^ b.q.toNat * 5 ^ (-b.q).toNat, min b.q 0⟩ := by
  constructor
  · exact Nat.mul_pos (Nat.mul_pos pos (Nat.two_pow_pos _)) (Nat.pow_pos (show 0 < 5 by decide))
  · have exact_ : Scaled.value ⟨b.m * 2 ^ b.q.toNat * 5 ^ (-b.q).toNat, min b.q 0⟩ =
        b.m * 2 ^ b.q := by
      unfold Scaled.value
      dsimp only
      push_cast
      rcases Int.le_total 0 b.q with up | down
      · have whole : (-b.q).toNat = 0 := by omega
        rw [min_eq_right up, whole, zpow_zero, ← zpow_natCast, Int.toNat_of_nonneg up]
        ring
      · have fives := zpow_mul_toNat_neg (c := 5) (by norm_num) b.q
        have none : b.q.toNat = 0 := by omega
        have ten : (10 : ℚ) ^ b.q = 2 ^ b.q * 5 ^ b.q := by
          rw [← mul_zpow]
          norm_num
        rw [none, pow_zero] at fives
        rw [min_eq_left down, none, pow_zero, ten]
        calc
          (b.m * 1 * 5 ^ (-b.q).toNat * (2 ^ b.q * 5 ^ b.q) : ℚ) =
              b.m * 2 ^ b.q * (5 ^ b.q * 5 ^ (-b.q).toNat) := by ring
          _ = b.m * 2 ^ b.q := by rw [fives, mul_one]
    rw [exact_]
    have quarter : (2 : ℚ) ^ b.q = 4 * 2 ^ (b.q - 2) := by
      rw [zpow_sub₀ (by norm_num)]
      norm_num
      ring
    have scale : (0 : ℚ) < 2 ^ (b.q - 2) := by positivity
    calc
      (b.m * 2 ^ b.q : ℚ) = 4 * b.m * 2 ^ (b.q - 2) := by
        rw [quarter]
        ring
      _ ≤ b.top := mul_le_mul_of_nonneg_right (by linarith) scale.le

/-- The shortest decimal is no larger than what rounds to the double. -/
theorem under_shortest (tie : Tie) (pos : 0 < b.m) : Under b (shortest tie b) := by
  unfold shortest
  apply Under.stripZeros
  cases found : (List.range 17).findSome? fun (n : Nat) => nearest? tie b (scale b - (n + 1)) with
  | some d =>
    obtain ⟨n, -, found⟩ := List.exists_of_findSome?_eq_some found
    exact under_of_nearest? pos found
  | none => exact under_exact pos

end GeneCalculus.Decimal
