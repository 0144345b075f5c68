import Mathlib.Algebra.Order.Field.Power
import GeneCalculus.Json.Number
import GeneCalculus.Proofs.Double.Product

/-!
Scaling of significands. Scaling down never fails. Scaling up fails if the product is infinite, and
it is not if the digits stand for no more than what rounds to the second largest double.
-/

namespace GeneCalculus.Json.Number

open Float.Model UnpackedFloat Double

variable {word e : Nat} {s : Significand} {ds : List Nat}

/-- Scaling down never fails. -/
theorem exists_scaleBy_down {exponent : Int} (down : exponent < 0) (fuel : Nat) (f : Float) :
    ∃ y, scaleBy fuel f exponent = some y := by
  induction fuel generalizing f exponent with
  | zero =>
    unfold scaleBy
    split
    · rw [if_neg (by omega)]
      exact ⟨_, rfl⟩
    · split
      · exact ⟨_, rfl⟩
      · rw [if_neg (by omega)]
        exact ⟨_, rfl⟩
  | succ fuel ih =>
    unfold scaleBy
    split
    · rw [if_neg (by omega)]
      exact ⟨_, rfl⟩
    · split
      · exact ⟨_, rfl⟩
      · rw [if_neg (by omega)]
        exact ih (by omega) _

theorem exists_double?_down {exponent : Int} (down : exponent < 0) (negative : Bool) (word : Nat) :
    ∃ y, double? negative word exponent = some y := by
  obtain ⟨f, scaled⟩ := exists_scaleBy_down down 8 (UInt64.ofNat word).toFloat
  unfold double?
  rw [scaled]
  exact ⟨_, rfl⟩

/-- The upper end of the reals that round to the second largest double. -/
def largest : Nat := (2 ^ 55 - 6) * 2 ^ 969

/-- A power of ten that is not exact is computed as a product and rounded. -/
theorem value_power (more : 22 < e) (le : e ≤ 308) :
    value (Float.ofScientific 1 false e) = (Float.Model.pack
      (roundWithAccuracy Format.binary64 .positive (2 ^ 53 * 10 ^ e) (-53) .exact)).unpack := by
  have bits : Format.binary64.mantissaBits = 53 := by decide
  have fields : Format.binary64.exponentBits = 11 := by decide
  unfold Float.ofScientific
  rw [dif_neg (by omega)]
  show (Float.Model.pack (UnpackedFloat.ofScientific Format.binary64 1 (e : Int))).unpack = _
  unfold UnpackedFloat.ofScientific
  rw [dif_neg (by decide), if_neg (by rw [fields]; omega), if_neg (by rw [fields]; omega),
    if_pos (by omega)]
  simp only [bits]
  rfl

theorem near_power_mono {f : Nat} (le : e ≤ f) : near (10 ^ e) ≤ near (10 ^ f) :=
  near_mono (Nat.pow_le_pow_right (by decide) le)

/-- A power of ten is the double nearest to it. -/
theorem stands_power (le : e ≤ 308) :
    Stands (10 ^ e) (value (Float.ofScientific 1 false e)) := by
  by_cases small : e ≤ 22
  · have table : ∀ e < 23, Stands (10 ^ e) (value (Float.ofScientific 1 false e)) := by
      decide +kernel
    exact table e (by omega)
  · have pos : 0 < 10 ^ e := Nat.pow_pos (by decide)
    have wide : 53 ≤ (2 ^ 53 * 10 ^ e).log2 := by
      rw [Nat.mul_comm, log2_shift pos.ne']
      omega
    obtain ⟨r, j, some, rounded, canonical, size⟩ := roundWithAccuracy_near (s := .positive)
      (m := 2 ^ 53 * 10 ^ e) (e := -53) (by omega) (by decide) (by omega)
    have nearest : scaled r j = near (10 ^ e) * unitsOfOne := by
      have places : 53 + (-53 + 1074 : Int).toNat = (0 + 1074 : Int).toNat := by decide
      rw [size, ← near_mul_unitsOfOne, scaled, unitsOfOne_eq, Nat.mul_comm (2 ^ 53), Nat.mul_assoc,
        ← Nat.pow_add, places]
    have small : j ≤ 971 := by
      by_contra large
      have more := canonical.le_scaled (Int.not_le.1 large)
      have less : near (10 ^ 308) < 2 ^ 1024 := by decide +kernel
      rw [nearest] at more
      exact absurd (Nat.lt_of_le_of_lt (near_power_mono le) less)
        (Nat.not_lt.2 (Nat.le_of_mul_le_mul_right more unitsOfOne_pos))
    rw [value_power (by omega) le, rounded,
      unpack_pack (u := .finite _ r j some) ⟨canonical, small⟩]
    exact nearest

/-- What a word times a power of ten is rounded to is not too large. -/
theorem near_power_lt (fits : word ≤ wordMax) (room : word * 10 ^ e ≤ largest) (le : e ≤ 308) :
    near (near word * near (10 ^ e)) < 2 ^ 1024 := by
  by_cases low : e ≤ 288
  · have most : near (near wordMax * near (10 ^ 288)) < 2 ^ 1024 := by decide +kernel
    have factors := Nat.mul_le_mul (near_mono fits) (near_power_mono low)
    exact Nat.lt_of_le_of_lt (near_mono factors) most
  · have table : ∀ i < 20, near (near (largest / 10 ^ (289 + i)) * near (10 ^ (289 + i))) <
        2 ^ 1024 := by
      decide +kernel
    have row := table (e - 289) (by omega)
    rw [Nat.add_sub_cancel' (by omega)] at row
    have word_le : word ≤ largest / 10 ^ e :=
      (Nat.le_div_iff_mul_le (Nat.pow_pos (by decide))).2 room
    exact Nat.lt_of_le_of_lt (near_mono (Nat.mul_le_mul_right _ (near_mono word_le))) row

/-- Scaling up gives a number if there is room. -/
theorem exists_scaleBy_up (fits : word ≤ wordMax) (room : word * 10 ^ e ≤ largest) (le : e ≤ 308)
    (fuel : Nat) : ∃ y, scaleBy fuel (UInt64.ofNat word).toFloat e = some y := by
  have few : word < 2 ^ 64 := Nat.lt_of_le_of_lt fits (by decide)
  have finite := not_isInf_mul (stands_toFloat few) (stands_power le) (near_power_lt fits room le)
  unfold scaleBy
  rw [Int.natAbs_natCast, if_pos le]
  dsimp only
  rw [if_pos (Int.natCast_nonneg e), if_neg finite]
  exact ⟨_, rfl⟩

/-- A significand of at most `n` digits, all of them kept. -/
structure Fits (n : Nat) (s : Significand) : Prop where
  word : s.word < 10 ^ n
  exponent : s.exponent = 0
  kept : s.full = false

theorem pow_le_wordMax {n : Nat} (few : n ≤ 19) : 10 ^ n ≤ wordMax := by
  calc
    10 ^ n ≤ 10 ^ 19 := Nat.pow_le_pow_right (by decide) few
    _ ≤ wordMax := by decide

theorem Fits.append {n : Nat} (h : Fits n s) (digit : d < 10) (few : n < 19) :
    ¬wordMax < s.word * 10 + d ∧ s.word * 10 + d < 10 ^ (n + 1) := by
  have room : 10 ^ (n + 1) ≤ wordMax := pow_le_wordMax few
  have small := h.word
  rw [Nat.pow_succ] at room ⊢
  omega

theorem Fits.foldl_whole {n : Nat} (h : Fits n s) (digits : ∀ d ∈ ds, d < 10)
    (few : n + ds.length ≤ 19) : Fits (n + ds.length) (ds.foldl Significand.whole s) := by
  induction ds generalizing s n with
  | nil => exact h
  | cons d ds ih =>
    have ⟨room, small⟩ := h.append (digits d List.mem_cons_self) (by
      rw [List.length_cons] at few
      omega)
    have next : Fits (n + 1) (s.whole d) := by
      unfold Significand.whole
      rw [if_neg (by simp [h.kept]), if_neg room]
      exact ⟨small, h.exponent, h.kept⟩
    have all := ih next (fun e he => digits e (List.mem_cons_of_mem _ he)) (by
      rw [List.length_cons] at few
      omega)
    rwa [Nat.add_assoc, Nat.add_comm 1] at all

/-- The number that decimal digits behind `v` write. -/
def followed (v : Nat) (ds : List Nat) : Nat := ds.foldl (fun v d => v * 10 + d) v

theorem le_followed (v : Nat) (ds : List Nat) : v * 10 ^ ds.length ≤ followed v ds := by
  induction ds generalizing v with
  | nil => exact Nat.le_of_eq (Nat.mul_one v)
  | cons d ds ih =>
    calc
      v * 10 ^ (ds.length + 1) = v * 10 * 10 ^ ds.length := by
        rw [Nat.pow_succ, Nat.mul_comm _ 10, Nat.mul_assoc]
      _ ≤ (v * 10 + d) * 10 ^ ds.length := Nat.mul_le_mul_right _ (Nat.le_add_right ..)
      _ ≤ followed v (d :: ds) := ih _

/-- A full significand stays as it is. -/
theorem foldl_part_of_full (full : s.full) (ds : List Nat) : ds.foldl Significand.part s = s := by
  induction ds with
  | nil => rfl
  | cons d ds ih => rw [List.foldl_cons, Significand.part, if_pos full, ih]

theorem part_of_room {d : Nat} (open_ : s.full = false) (room : s.word * 10 + d ≤ wordMax) :
    s.part d = ⟨s.word * 10 + d, s.exponent - 1, false⟩ := by
  unfold Significand.part
  rw [if_neg (Bool.eq_false_iff.1 open_), if_neg (Nat.not_lt.2 room), open_]

/-- Of the digits behind the point the first `j` are kept, and what is kept is no more than what all
of them write. -/
structure Keeps (s t : Significand) (ds : List Nat) (j : Nat) : Prop where
  few : j ≤ ds.length
  exponent : t.exponent = s.exponent - j
  fits : t.word ≤ wordMax
  le : t.word * 10 ^ (ds.length - j) ≤ followed s.word ds

theorem keeps_none (fits : s.word ≤ wordMax) (full : Bool) (ds : List Nat) :
    Keeps s { s with full } ds 0 :=
  ⟨Nat.zero_le _, (Int.sub_zero _).symm, fits, le_followed s.word ds⟩

theorem exists_keeps (ds : List Nat) (fits : s.word ≤ wordMax) :
    ∃ j, Keeps s (ds.foldl Significand.part s) ds j := by
  induction ds generalizing s with
  | nil => exact ⟨0, keeps_none fits s.full []⟩
  | cons d ds ih =>
    by_cases full : s.full
    · rw [foldl_part_of_full full]
      exact ⟨0, keeps_none fits s.full _⟩
    · by_cases room : s.word * 10 + d ≤ wordMax
      · rw [List.foldl_cons, part_of_room (Bool.eq_false_iff.2 full) room]
        obtain ⟨j, few, exponent, fits, le⟩ := @ih ⟨s.word * 10 + d, s.exponent - 1, false⟩ room
        refine ⟨j + 1, Nat.succ_le_succ few, ?_, fits, ?_⟩
        · rw [exponent]
          push_cast
          ring
        · rwa [List.length_cons, Nat.add_sub_add_right]
      · have shut : s.part d = { s with full := true } := by
          unfold Significand.part
          rw [if_neg full, if_pos (Nat.not_le.1 room)]
        rw [List.foldl_cons, shut, foldl_part_of_full rfl]
        exact ⟨0, keeps_none fits true _⟩

/-- A number with digits behind its point is a double. -/
theorem exists_ofDigits_part {whole part : List Nat} (negative : Bool)
    (hw : ∀ d ∈ whole, d < 10) (hp : ∀ d ∈ part, d < 10) (few : whole.length < 19)
    (behind : part ≠ []) :
    ∃ y, ofDigits negative whole part none = some (.real y) := by
  have start : Fits 0 ⟨0, 0, false⟩ := ⟨by decide, rfl, rfl⟩
  have front := start.foldl_whole hw (by omega)
  unfold ofDigits
  generalize whole.foldl Significand.whole ⟨0, 0, false⟩ = s at front
  cases part with
  | nil => exact absurd rfl behind
  | cons d ds =>
    -- the first digit behind the point fits, and each that fits lowers the exponent
    have room := Nat.not_lt.1 (front.append (hp d List.mem_cons_self) (by omega)).1
    obtain ⟨j, -, exponent, -, -⟩ := exists_keeps (s := ⟨s.word * 10 + d, s.exponent - 1, false⟩) ds
      room
    have first := part_of_room (s := { s with full := false }) rfl room
    simp only [List.foldl_cons, first]
    generalize ds.foldl Significand.part ⟨s.word * 10 + d, s.exponent - 1, false⟩ = t at exponent
    dsimp only at exponent
    rw [front.exponent] at exponent
    obtain ⟨y, read⟩ := exists_double?_down (by omega : t.exponent < 0) negative t.word
    exact ⟨y, congrArg (Option.map Number.real) read⟩

theorem exists_withExponent_down {value : Nat} (negative : Bool) (low : s.exponent ≤ 0)
    (pos : 0 < value) : ∃ y, withExponent negative s true value = some y := by
  unfold withExponent
  dsimp only
  split
  · rw [if_neg (by simp)]
    exact ⟨_, rfl⟩
  · apply exists_double?_down
    rw [if_pos rfl]
    omega

/-- A number with an exponent is a double if it is in range. -/
theorem exists_of_isSome {whole part : List Nat} {exponent : Bool × Nat} {negative : Bool}
    (read : (ofDigits negative whole part (some exponent)).isSome) :
    ∃ y, ofDigits negative whole part (some exponent) = some (.real y) := by
  have real : ∃ f, ofDigits negative whole part (some exponent) = Option.map Number.real f := by
    unfold ofDigits
    cases part <;> exact ⟨_, rfl⟩
  obtain ⟨f, real⟩ := real
  rw [real, Option.isSome_map] at read
  obtain ⟨y, some⟩ := Option.isSome_iff_exists.1 read
  exact ⟨y, by rw [real, some, Option.map_some]⟩

/-- A number with a negative exponent is a double. -/
theorem exists_ofDigits_down {whole : List Nat} {value : Nat} (negative : Bool) (part : List Nat)
    (hw : ∀ d ∈ whole, d < 10) (few : whole.length < 19) (pos : 0 < value) :
    ∃ y, ofDigits negative whole part (some (true, value)) = some (.real y) := by
  have start : Fits 0 ⟨0, 0, false⟩ := ⟨by decide, rfl, rfl⟩
  have front := start.foldl_whole hw (by omega)
  unfold ofDigits
  generalize whole.foldl Significand.whole ⟨0, 0, false⟩ = s at front
  have fits : s.word ≤ wordMax := front.word.le.trans (pow_le_wordMax (by omega))
  obtain ⟨j, -, exponent, -, -⟩ := exists_keeps (s := { s with full := false }) part fits
  have low : (part.foldl Significand.part { s with full := false }).exponent ≤ 0 := by
    rw [exponent, front.exponent]
    omega
  obtain ⟨y, read⟩ := exists_withExponent_down negative low pos
  exact ⟨y, by cases part <;> exact congrArg (Option.map Number.real) read⟩

theorem exists_withExponent_up {value : Nat} (negative : Bool) (le : value ≤ 308)
    (low : s.exponent ≤ 0) (fits : s.word ≤ wordMax)
    (room : ∀ e : Nat, s.exponent + value = e → s.word * 10 ^ e ≤ largest) :
    ∃ y, withExponent negative s false value = some y := by
  unfold withExponent
  dsimp only
  rw [if_neg (by omega), if_neg Bool.false_ne_true]
  by_cases down : s.exponent + value < 0
  · exact exists_double?_down (by omega) negative s.word
  · obtain ⟨e, sum⟩ := Int.eq_ofNat_of_zero_le (Int.not_lt.1 down)
    have clamped : max (-0x7fffffff - 1 : Int) (min 0x7fffffff (s.exponent + value)) = e := by omega
    obtain ⟨y, scaled⟩ := exists_scaleBy_up fits (room e sum) (by omega) 8
    unfold double?
    rw [clamped, scaled]
    exact ⟨_, rfl⟩

/-- A number with a positive exponent is a double if it is not too large. -/
theorem exists_ofDigits_up {c value : Nat} {part : List Nat} (negative : Bool) (digit : c < 10)
    (le : value ≤ 308)
    (room : (followed c part * 10 ^ ((value : Int) - part.length) : ℚ) ≤ largest) :
    ∃ y, ofDigits negative [c] part (some (false, value)) = some (.real y) := by
  have front : Significand.whole ⟨0, 0, false⟩ c = ⟨c, 0, false⟩ := by
    unfold Significand.whole
    rw [if_neg Bool.false_ne_true, if_neg (by unfold wordMax; dsimp only; omega)]
    simp
  obtain ⟨j, few, exponent, fits, kept⟩ := exists_keeps (s := ⟨c, 0, false⟩) part
    (by unfold wordMax; dsimp only; omega)
  unfold ofDigits
  simp only [List.foldl_cons, List.foldl_nil, front]
  generalize part.foldl Significand.part ⟨c, 0, false⟩ = t at exponent fits kept
  dsimp only at exponent kept
  obtain ⟨y, read⟩ := exists_withExponent_up negative le (by omega) fits fun e sum => by
    have places : (e : Int) = (part.length - j : Nat) + ((value : Int) - part.length) := by omega
    have size : (t.word * 10 ^ e : ℚ) ≤ largest := by
      calc
        (t.word * 10 ^ e : ℚ) =
            t.word * 10 ^ (part.length - j) * 10 ^ ((value : Int) - part.length) := by
          rw [← zpow_natCast, ← zpow_natCast, places, zpow_add₀ (by norm_num), mul_assoc]
        _ ≤ followed c part * 10 ^ ((value : Int) - part.length) :=
          mul_le_mul_of_nonneg_right (by exact_mod_cast kept) (by positivity)
        _ ≤ largest := room
    exact_mod_cast size
  exact ⟨y, by cases part <;> exact congrArg (Option.map Number.real) read⟩

end GeneCalculus.Json.Number
