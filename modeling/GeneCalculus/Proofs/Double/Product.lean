import GeneCalculus.Proofs.Double.Value

/-!
Products of doubles that stand for naturals. Such a double is the nearest one to its natural, and so
is a product to the product of what its factors are, so it is finite if that has few enough bits.
-/

namespace GeneCalculus.Double

open Float.Model UnpackedFloat

variable {x y : Float} {u v : UnpackedFloat} {k n p : Nat}

/-- Rounding does not depend on the unit. -/
theorem near_mul_two_pow (n k : Nat) : near (n * 2 ^ k) = near n * 2 ^ k := by
  by_cases bits : n < 2 ^ 53
  · have alone := near_shift bits 0
    rw [Nat.pow_zero, Nat.mul_one] at alone
    rw [near_shift bits, alone]
  · have wide : 53 ≤ n.log2 := (Nat.le_log2 (by omega)).2 (by omega)
    have places : excess (n * 2 ^ k) = excess n + k := by
      rw [excess, excess, log2_shift (by omega)]
      omega
    unfold near
    rw [places, Nat.pow_add, Decimal.roundQuotient_scale (Nat.two_pow_pos k), Nat.mul_assoc]

/-- One, in units of the least positive double. -/
def unitsOfOne : Nat := scaled 1 0

theorem unitsOfOne_eq : unitsOfOne = 2 ^ (0 + 1074 : Int).toNat := Nat.one_mul _

theorem unitsOfOne_pos : 0 < unitsOfOne := scaled_pos Nat.one_pos

theorem two_pow_le_unitsOfOne (few : k ≤ 1074) : 2 ^ k ≤ unitsOfOne := by
  rw [unitsOfOne_eq]
  exact Nat.pow_le_pow_right (by decide) (by omega)

theorem near_mul_unitsOfOne (n : Nat) : near (n * unitsOfOne) = near n * unitsOfOne := by
  rw [unitsOfOne_eq, near_mul_two_pow]

/-- The number is zero or, up to its sign, nearest to a natural. -/
def Stands (n : Nat) : UnpackedFloat → Prop
  | .zero _ => n = 0
  | .finite _ m e _ => scaled m e = near n * unitsOfOne
  | .infinity _ | .notANumber => False

instance (n : Nat) : (u : UnpackedFloat) → Decidable (Stands n u)
  | .zero _ => inferInstanceAs (Decidable (n = 0))
  | .finite _ m e _ => inferInstanceAs (Decidable (scaled m e = near n * unitsOfOne))
  | .infinity _ | .notANumber => inferInstanceAs (Decidable False)

theorem isInf_iff : x.isInf ↔ ∃ s, value x = .infinity s := by
  show (value x).isInf ↔ _
  cases value x with
  | infinity s => exact ⟨fun _ => ⟨s, rfl⟩, fun _ => rfl⟩
  | _ => exact ⟨nofun, nofun⟩

/-- A number that stands for a natural has all its bits. -/
theorem Stands.full {s : Sign} {m : Nat} {e : Int} {pos : 0 < m} (packs : Packs (.finite s m e pos))
    (h : Stands n (.finite s m e pos)) : 2 ^ 52 ≤ m ∧ -52 ≤ e := by
  have least : -52 ≤ e := by
    by_contra low
    have some : 0 < near n := by
      apply Nat.pos_of_ne_zero
      intro none
      have size : scaled m e = near n * unitsOfOne := h
      rw [none, Nat.zero_mul] at size
      exact absurd size (scaled_pos pos).ne'
    have less : scaled m e < near n * unitsOfOne := by
      calc
        scaled m e < 2 ^ 53 * 2 ^ (e + 1074).toNat :=
          Nat.mul_lt_mul_of_pos_right packs.1.bits (Nat.two_pow_pos _)
        _ = 2 ^ (53 + (e + 1074).toNat) := (Nat.pow_add ..).symm
        _ ≤ unitsOfOne := two_pow_le_unitsOfOne (by omega)
        _ ≤ near n * unitsOfOne := Nat.le_mul_of_pos_left _ some
    exact absurd h less.ne
  exact ⟨packs.1.full.resolve_right (by omega), least⟩

/-- The exact product of finite numbers that stand for naturals. -/
theorem Stands.scaled_mul {s t : Sign} {m q : Nat} {e d : Int} {pos : 0 < m} {pos' : 0 < q}
    (h : Stands n (.finite s m e pos)) (h' : Stands p (.finite t q d pos'))
    (least : -52 ≤ e ∧ -52 ≤ d) : scaled (m * q) (e + d) = near n * near p * unitsOfOne := by
  have left : m * 2 ^ (e + 1074).toNat = near n * unitsOfOne := h
  have right : q * 2 ^ (d + 1074).toNat = near p * unitsOfOne := h'
  have places : (e + d + 1074).toNat + (0 + 1074 : Int).toNat =
      (e + 1074).toNat + (d + 1074).toNat := by omega
  apply Nat.eq_of_mul_eq_mul_right unitsOfOne_pos
  calc
    scaled (m * q) (e + d) * unitsOfOne =
        m * q * 2 ^ ((e + d + 1074).toNat + (0 + 1074 : Int).toNat) := by
      rw [scaled, unitsOfOne_eq, Nat.mul_assoc, ← Nat.pow_add]
    _ = m * 2 ^ (e + 1074).toNat * (q * 2 ^ (d + 1074).toNat) := by
      rw [places, Nat.pow_add]
      ring
    _ = near n * near p * unitsOfOne * unitsOfOne := by
      rw [left, right]
      ring

/-- A canonical number with a large exponent is large. -/
theorem Canonical.le_scaled {m : Nat} {e : Int} (h : Canonical m e) (large : 971 < e) :
    2 ^ 1024 * unitsOfOne ≤ scaled m e := by
  have full := h.full.resolve_right (by omega)
  have places : 972 + (0 + 1074 : Int).toNat ≤ (e + 1074).toNat := by omega
  rw [unitsOfOne_eq]
  generalize (0 + 1074 : Int).toNat = k at places
  calc
    2 ^ 1024 * 2 ^ k = 2 ^ 52 * 2 ^ (972 + k) := by
      rw [← Nat.pow_add, ← Nat.pow_add, ← Nat.add_assoc]
    _ ≤ scaled m e := Nat.mul_le_mul full (Nat.pow_le_pow_right (by decide) places)

/-- A product of numbers that stand for naturals is finite, if the nearest double is not too
large. -/
theorem mul_ne_infinity (hu : Packs u) (hv : Packs v) (su : Stands n u) (sv : Stands p v)
    (room : near (near n * near p) < 2 ^ 1024) (s : Sign) :
    (Float.Model.pack (UnpackedFloat.mul Format.binary64 u v)).unpack ≠ .infinity s := by
  have zero (t : Sign) : (Float.Model.pack (.zero t)).unpack ≠ .infinity s := by
    rw [unpack_pack (u := .zero t) trivial]
    nofun
  cases u with
  | notANumber => cases su
  | infinity => cases su
  | zero t =>
    cases v with
    | notANumber => cases sv
    | infinity => cases sv
    | zero | finite => exact zero _
  | finite t m e pos =>
    cases v with
    | notANumber => cases sv
    | infinity => cases sv
    | zero => exact zero _
    | finite r q d pos' =>
      obtain ⟨full, least⟩ := su.full hu
      obtain ⟨full', least'⟩ := sv.full hv
      have bits : 52 ≤ (m * q).log2 := by
        apply (Nat.le_log2 (Nat.mul_pos pos pos').ne').2
        calc
          2 ^ 52 ≤ 2 ^ 52 * 2 ^ 52 := by decide
          _ ≤ m * q := Nat.mul_le_mul full full'
      obtain ⟨a, j, some, rounded, canonical, size⟩ := roundWithAccuracy_near (s := t * r)
        (Nat.mul_pos pos pos') (e := e + d) (by omega) (by omega)
      rw [su.scaled_mul sv ⟨least, least'⟩, near_mul_unitsOfOne] at size
      have small : j ≤ 971 := by
        by_contra large
        have more := canonical.le_scaled (Int.not_le.1 large)
        rw [size] at more
        exact absurd room (Nat.not_lt.2 (Nat.le_of_mul_le_mul_right more unitsOfOne_pos))
      show (Float.Model.pack (roundWithAccuracy Format.binary64 (t * r) (m * q) (e + d)
        .exact)).unpack ≠ _
      rw [rounded, unpack_pack (u := .finite (t * r) a j some) ⟨canonical, small⟩]
      nofun

/-- A product is finite if that of the nearest doubles is not too large. -/
theorem not_isInf_mul (hx : Stands n (value x)) (hy : Stands p (value y))
    (room : near (near n * near p) < 2 ^ 1024) : ¬(x * y).isInf := by
  rw [isInf_iff, value_mul]
  rintro ⟨s, infinite⟩
  exact mul_ne_infinity (packs_value x) (packs_value y) hx hy room s infinite

theorem Nearest.stands (h : Nearest ((n * unitsOfOne : Nat) : Int) u) (finite : u.isFinite) :
    Stands n u := by
  cases h with
  | zero s none =>
    exact (Nat.mul_eq_zero.1 (Int.natCast_eq_zero.1 none)).resolve_right unitsOfOne_pos.ne'
  | finite s m e pos canonical small size =>
    show scaled m e = near n * unitsOfOne
    rw [size, Int.natAbs_natCast, near_mul_unitsOfOne]
  | infinity => cases finite

/-- A word of sixty-four bits becomes the double nearest to it. -/
theorem stands_toFloat (fits : n < 2 ^ 64) : Stands n (value (UInt64.ofNat n).toFloat) := by
  have word : (UInt64.ofNat n).toNat = n := UInt64.toNat_ofNat_of_lt' fits
  show Stands n (Float.Model.pack (UnpackedFloat.normalize Format.binary64
    ((UInt64.ofNat n).toNat : Int) 0 .positive)).unpack
  rw [word]
  rcases normalize_cases .positive (by decide : (-1074 : Int) ≤ 0) (n : Int) with
    ⟨none, zero⟩ | ⟨s, r, d, pos, rounded, canonical, size⟩
  · rw [zero, unpack_pack (u := .zero .positive) trivial]
    exact Int.natCast_eq_zero.1 none
  · rw [rounded]
    have nearest : Nearest ((n * unitsOfOne : Nat) : Int)
        (Float.Model.pack (.finite s r d pos)).unpack := by
      apply nearest_pack pos canonical
      rw [size, Int.natAbs_natCast, Int.natAbs_natCast, unitsOfOne_eq, scaled]
    have bound : ((n * unitsOfOne : Nat) : Int).natAbs ≤
        2 ^ (52 + (12 + (0 + 1074 : Int).toNat)) := by
      rw [Int.natAbs_natCast, unitsOfOne_eq]
      generalize (0 + 1074 : Int).toNat = k
      calc
        n * 2 ^ k ≤ 2 ^ 64 * 2 ^ k := Nat.mul_le_mul_right _ fits.le
        _ = 2 ^ (52 + (12 + k)) := by rw [← Nat.pow_add, ← Nat.add_assoc]
    exact nearest.stands (nearest.within bound (by decide)).isFinite

end GeneCalculus.Double
