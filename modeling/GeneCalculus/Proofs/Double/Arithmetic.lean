import GeneCalculus.Proofs.Double.Rounding

/-!
Sums and the order of doubles in whole units. Finite doubles are ordered as their units are, and a
sum is nearest to the sum of the units; it is infinite if no finite double is that large.
-/

namespace GeneCalculus.Double

open Float.Model UnpackedFloat

variable {u v : UnpackedFloat} {s : Sign} {m n p : Nat} {d e k : Int} {z : Int}

/-- The value of a finite double in units of the least positive one. -/
def units : UnpackedFloat → Int
  | .finite s m e _ => s.apply (scaled m e)
  | _ => 0

theorem natAbs_apply (s : Sign) (n : Nat) : (s.apply n).natAbs = n := by
  cases s
  · exact Int.natAbs_neg n
  · rfl

theorem scaled_pos (pos : 0 < m) : 0 < scaled m e := Nat.mul_pos pos (Nat.two_pow_pos _)

theorem Canonical.near (h : Canonical m e) : near (scaled m e) = scaled m e :=
  near_shift h.bits _

/-- Of canonical numbers the one with the larger exponent is larger. -/
theorem Canonical.scaled_lt (hm : Canonical m e) (hn : Canonical n d) (less : e < d) :
    scaled m e < scaled n d := by
  have least := hm.least
  have full : 2 ^ 52 ≤ n := hn.full.resolve_right (by omega)
  have places : (e + 1074).toNat + 1 ≤ (d + 1074).toNat := by omega
  calc
    scaled m e < 2 ^ 53 * 2 ^ (e + 1074).toNat :=
      Nat.mul_lt_mul_of_pos_right hm.bits (Nat.two_pow_pos _)
    _ = 2 ^ 52 * 2 ^ ((e + 1074).toNat + 1) := by ring
    _ ≤ 2 ^ 52 * 2 ^ (d + 1074).toNat :=
      Nat.mul_le_mul_left _ (Nat.pow_le_pow_right (by decide) places)
    _ ≤ scaled n d := Nat.mul_le_mul_right _ full

theorem compare_scaled (hm : Canonical m e) (hn : Canonical n d) :
    (compare e d).then (compare m n) = compare (scaled m e : Int) (scaled n d) := by
  rcases Int.lt_trichotomy e d with less | rfl | more
  · have below : (scaled m e : Int) < scaled n d := Int.ofNat_lt.2 (hm.scaled_lt hn less)
    rw [Int.compare_eq_lt.2 less, Int.compare_eq_lt.2 below]
    rfl
  · have scale : (0 : Int) < 2 ^ (e + 1074).toNat := Int.pow_pos (by decide)
    rw [Int.compare_eq_eq.2 rfl]
    show compare m n = compare ((m * 2 ^ (e + 1074).toNat : Nat) : Int)
      ((n * 2 ^ (e + 1074).toNat : Nat) : Int)
    push_cast
    rcases Nat.lt_trichotomy m n with less | rfl | more
    · have below := Int.mul_lt_mul_of_pos_right (Int.ofNat_lt.2 less) scale
      rw [Nat.compare_eq_lt.2 less, Int.compare_eq_lt.2 below]
    · rw [Nat.compare_eq_eq.2 rfl, Int.compare_eq_eq.2 rfl]
    · have above := Int.mul_lt_mul_of_pos_right (Int.ofNat_lt.2 more) scale
      rw [Nat.compare_eq_gt.2 more, Int.compare_eq_gt.2 above]
  · have above : (scaled n d : Int) < scaled m e := Int.ofNat_lt.2 (hn.scaled_lt hm more)
    rw [Int.compare_eq_gt.2 more, Int.compare_eq_gt.2 above]
    rfl

theorem compare_neg (a b : Int) : compare (-a) (-b) = (compare a b).swap := by
  rcases Int.lt_trichotomy a b with less | rfl | more
  · rw [Int.compare_eq_lt.2 less, Int.compare_eq_gt.2 (Int.neg_lt_neg less)]
    rfl
  · rw [Int.compare_eq_eq.2 rfl, Int.compare_eq_eq.2 rfl]
    rfl
  · rw [Int.compare_eq_gt.2 more, Int.compare_eq_lt.2 (Int.neg_lt_neg more)]
    rfl

/-- Finite doubles compare as their units do. -/
theorem compare_units (hu : Packs u) (hv : Packs v) (fu : u.isFinite) (fv : v.isFinite) :
    u.compare v = some (compare (units u) (units v)) := by
  have lt : ∀ {a b : Int}, a < b → some Ordering.lt = some (compare a b) := fun less => by
    rw [Int.compare_eq_lt.2 less]
  have gt : ∀ {a b : Int}, b < a → some Ordering.gt = some (compare a b) := fun more => by
    rw [Int.compare_eq_gt.2 more]
  cases u with
  | notANumber => cases fu
  | infinity => cases fu
  | zero s =>
    cases v with
    | notANumber => cases fv
    | infinity => cases fv
    | zero => rfl
    | finite t n d pos =>
      have := scaled_pos (e := d) pos
      cases t
      · exact gt (show -(scaled n d : Int) < 0 by omega)
      · exact lt (show (0 : Int) < scaled n d by omega)
  | finite s m e pos =>
    have := scaled_pos (e := e) pos
    cases v with
    | notANumber => cases fv
    | infinity => cases fv
    | zero =>
      cases s
      · exact lt (show -(scaled m e : Int) < 0 by omega)
      · exact gt (show (0 : Int) < scaled m e by omega)
    | finite t n d pos' =>
      have := scaled_pos (e := d) pos'
      have same := compare_scaled hu.1 hv.1
      cases s <;> cases t
      · show some ((compare e d).then (compare m n)).swap =
          some (compare (-(scaled m e : Int)) (-(scaled n d : Int)))
        rw [same, compare_neg]
      · exact lt (show -(scaled m e : Int) < scaled n d by omega)
      · exact gt (show -(scaled n d : Int) < scaled m e by omega)
      · exact congrArg some same

/-- A double of the size that is nearest to a whole number of units. -/
inductive Nearest (z : Int) : UnpackedFloat → Prop
  | zero (s : Sign) (none : z = 0) : Nearest z (.zero s)
  | finite (s : Sign) (m : Nat) (e : Int) (pos : 0 < m) (canonical : Canonical m e)
      (small : e ≤ 971) (size : scaled m e = near z.natAbs) : Nearest z (.finite s m e pos)
  | infinity (s : Sign) (large : ∀ m e, Canonical m e → e ≤ 971 → scaled m e < near z.natAbs) :
      Nearest z (.infinity s)

theorem Nearest.eq_zero (h : Nearest z u) (none : z = 0) : ∃ s, u = .zero s := by
  have rounded : Double.near z.natAbs = 0 := by
    subst none
    rfl
  cases h with
  | zero s => exact ⟨s, rfl⟩
  | finite s m e pos canonical small size =>
    have := scaled_pos (e := e) pos
    omega
  | infinity s large =>
    have := large 0 (-1074) ⟨by decide, by decide, .inr rfl⟩ (by decide)
    omega

/-- A canonical number is packed as the nearest double. -/
theorem nearest_pack (pos : 0 < m) (canonical : Canonical m e)
    (size : scaled m e = near z.natAbs) :
    Nearest z (Float.Model.pack (.finite s m e pos)).unpack := by
  by_cases small : e ≤ 971
  · have packs : Packs (.finite s m e pos) := ⟨canonical, small⟩
    rw [unpack_pack packs]
    exact .finite s m e pos canonical small size
  · rw [unpack_pack_of_large (by omega) pos]
    apply Nearest.infinity
    intro n d canonical' small'
    rw [← size]
    exact canonical'.scaled_lt canonical (by omega)

theorem scaled_shift {k : Nat} (least : -1074 + k ≤ e) :
    scaled (m * 2 ^ k) (e - k) = scaled m e := by
  have shifts : k + (e - k + 1074).toNat = (e + 1074).toNat := by omega
  rw [scaled, scaled, Nat.mul_assoc, ← Nat.pow_add, shifts]

/-- Rounding keeps a number other than zero. -/
theorem round_near (pos : 0 < m) (least : -1074 ≤ e) :
    ∃ r d h, UnpackedFloat.round Format.binary64 s m e = .finite s r d h ∧ Canonical r d ∧
      scaled r d = near (scaled m e) := by
  unfold UnpackedFloat.round decreaseExponent
  simp only [targetExponent_eq, Nat.shiftLeft_eq]
  generalize places : (e - max (m.log2 + e - 52) (-1074)).toNat = k
  have bits := log2_shift (m := m) (by omega) k
  rw [← scaled_shift (m := m) (k := k) (by omega)]
  apply roundWithAccuracy_near
  · exact Nat.mul_pos pos (Nat.two_pow_pos k)
  · omega
  · rw [bits]
    omega

/-- A signed significand is zero, or rounded with its sign. -/
theorem normalize_cases (zero : Sign) (least : -1074 ≤ e) (z : Int) :
    z = 0 ∧ UnpackedFloat.normalize Format.binary64 z e zero = .zero zero ∨
    ∃ s r d h, UnpackedFloat.normalize Format.binary64 z e zero = .finite s r d h ∧ Canonical r d ∧
      scaled r d = near (scaled z.natAbs e) := by
  unfold UnpackedFloat.normalize
  rcases Int.lt_trichotomy z 0 with neg | rfl | pos
  · have size : (-z).toNat = z.natAbs := by omega
    rw [Int.compare_eq_lt.2 neg, ← size]
    exact .inr ⟨.negative, round_near (by omega) least⟩
  · exact .inl ⟨rfl, rfl⟩
  · have size : z.toNat = z.natAbs := by omega
    rw [Int.compare_eq_gt.2 pos, ← size]
    exact .inr ⟨.positive, round_near (by omega) least⟩

theorem units_finite (s : Sign) (m : Nat) (e : Int) (pos : 0 < m) {j : Int} (low : -1074 ≤ j)
    (le : j ≤ e) : units (.finite s m e pos) =
      s.apply (m <<< (e - j).toNat : Nat) * 2 ^ (j + 1074).toNat := by
  have shifts : (e - j).toNat + (j + 1074).toNat = (e + 1074).toNat := by omega
  have size : scaled m e = (m <<< (e - j).toNat) * 2 ^ (j + 1074).toNat := by
    rw [scaled, Nat.shiftLeft_eq, Nat.mul_assoc, ← Nat.pow_add, shifts]
  show s.apply (scaled m e) = _
  rw [size, Nat.cast_mul, Nat.cast_pow]
  cases s
  · exact (Int.neg_mul ..).symm
  · rfl

/-- A difference is nearest to the difference of the units. -/
theorem sub_nearest (hu : Packs u) (hv : Packs v) (fu : u.isFinite) (fv : v.isFinite) :
    Nearest (units u - units v)
      (Float.Model.pack (UnpackedFloat.sub Format.binary64 u v)).unpack := by
  cases u with
  | notANumber => cases fu
  | infinity => cases fu
  | zero s =>
    cases v with
    | notANumber => cases fv
    | infinity => cases fv
    | zero t => cases s <;> cases t <;> exact .zero _ rfl
    | finite t n d pos =>
      apply nearest_pack pos hv.1
      show scaled n d = near (0 - t.apply (scaled n d)).natAbs
      rw [Int.zero_sub, Int.natAbs_neg, natAbs_apply, hv.1.near]
  | finite s m e pos =>
    cases v with
    | notANumber => cases fv
    | infinity => cases fv
    | zero t =>
      apply nearest_pack pos hu.1
      show scaled m e = near (s.apply (scaled m e) - 0).natAbs
      rw [Int.sub_zero, natAbs_apply, hu.1.near]
    | finite t n d pos' =>
      have low : -1074 ≤ min e d := Int.le_min.2 ⟨hu.1.least, hv.1.least⟩
      rw [units_finite s m e pos low (Int.min_le_left ..),
        units_finite t n d pos' low (Int.min_le_right ..), ← Int.sub_mul]
      show Nearest _ (Float.Model.pack (UnpackedFloat.normalize Format.binary64
        (s.apply (m <<< (e - min e d).toNat : Nat) - t.apply (n <<< (d - min e d).toNat : Nat))
        (min e d) .positive)).unpack
      generalize s.apply (m <<< (e - min e d).toNat : Nat) -
        t.apply (n <<< (d - min e d).toNat : Nat) = z
      rcases normalize_cases .positive low z with ⟨rfl, none⟩ | ⟨r, q, j, h, some, canonical, size⟩
      · rw [none, Int.zero_mul]
        exact .zero _ rfl
      · rw [some]
        apply nearest_pack h canonical
        rw [size, Int.natAbs_mul, Int.natAbs_pow]
        rfl

/-- Finite, with an exponent of at most `k`. -/
inductive Within (k : Int) : UnpackedFloat → Prop
  | zero (s : Sign) : Within k (.zero s)
  | finite (s : Sign) (m : Nat) (e : Int) (pos : 0 < m) (canonical : Canonical m e)
      (small : e ≤ k) : Within k (.finite s m e pos)

theorem Within.packs (h : Within k u) (most : k ≤ 971) : Packs u := by
  cases h with
  | zero => trivial
  | finite s m e pos canonical small => exact ⟨canonical, by omega⟩

theorem Within.isFinite (h : Within k u) : u.isFinite := by cases h <;> rfl

theorem Within.mono (h : Within k u) (le : k ≤ d) : Within d u := by
  cases h with
  | zero s => exact .zero s
  | finite s m e pos canonical small => exact .finite s m e pos canonical (by omega)

theorem Within.natAbs_units (h : Within k u) : (units u).natAbs ≤ 2 ^ (53 + (k + 1074).toNat) := by
  cases h with
  | zero => exact Nat.zero_le _
  | finite s m e pos canonical small =>
    have places : (e + 1074).toNat ≤ (k + 1074).toNat := by omega
    calc
      (s.apply (scaled m e)).natAbs = m * 2 ^ (e + 1074).toNat := natAbs_apply s _
      _ ≤ 2 ^ 53 * 2 ^ (e + 1074).toNat := Nat.mul_le_mul_right _ (Nat.le_of_lt canonical.bits)
      _ ≤ 2 ^ 53 * 2 ^ (k + 1074).toNat :=
        Nat.mul_le_mul_left _ (Nat.pow_le_pow_right (by decide) places)
      _ = 2 ^ (53 + (k + 1074).toNat) := (Nat.pow_add ..).symm

/-- The double nearest to a number of few bits is finite. -/
theorem Nearest.within (h : Nearest z u) (bound : z.natAbs ≤ 2 ^ (52 + p)) (most : p ≤ 2045) :
    Within (p - 1074) u := by
  have kept : Double.near z.natAbs ≤ 2 ^ (52 + p) := by
    rw [← near_two_pow (52 + p)]
    exact near_mono bound
  cases h with
  | zero s => exact .zero s
  | finite s m e pos canonical small size =>
    refine .finite s m e pos canonical ?_
    have least := canonical.least
    rcases canonical.full with full | low
    · have wide : 2 ^ (52 + (e + 1074).toNat) ≤ 2 ^ (52 + p) := by
        calc
          2 ^ (52 + (e + 1074).toNat) = 2 ^ 52 * 2 ^ (e + 1074).toNat := Nat.pow_add ..
          _ ≤ scaled m e := Nat.mul_le_mul_right _ full
          _ ≤ 2 ^ (52 + p) := size ▸ kept
      have := (Nat.pow_le_pow_iff_right (by decide)).1 wide
      omega
    · omega
  | infinity s large =>
    have canonical : Canonical (2 ^ 52) (p - 1074) := ⟨by decide, by omega, .inl (Nat.le_refl _)⟩
    have places : ((p : Int) - 1074 + 1074).toNat = p := by omega
    have size : scaled (2 ^ 52) (p - 1074) = 2 ^ (52 + p) := by
      rw [scaled, places, Nat.pow_add]
    have := large _ _ canonical (by omega)
    omega

/-- A difference has at most two bits more. -/
theorem sub_within (hu : Within k u) (hv : Within k v) (least : -1074 ≤ k) (most : k + 2 ≤ 971) :
    Within (k + 2) (Float.Model.pack (UnpackedFloat.sub Format.binary64 u v)).unpack := by
  have nearest := sub_nearest (hu.packs (by omega)) (hv.packs (by omega)) hu.isFinite hv.isFinite
  have bound : (units u - units v).natAbs ≤ 2 ^ (52 + ((k + 1074).toNat + 2)) := by
    have twice : 2 ^ (52 + ((k + 1074).toNat + 2)) = 2 * 2 ^ (53 + (k + 1074).toNat) := by
      rw [← Nat.pow_succ']
      congr 1
      omega
    have hu := hu.natAbs_units
    have hv := hv.natAbs_units
    omega
  exact (nearest.within bound (by omega)).mono (by omega)

theorem add_zero (h : u ≠ .zero .negative) :
    UnpackedFloat.add Format.binary64 u (.zero .positive) = u := by
  cases u with
  | zero s =>
    cases s
    · exact absurd rfl h
    · rfl
  | _ => rfl

/-- Only negative zeros add up to a negative zero. -/
theorem add_ne_negative_zero (hu : Packs u) (hv : Packs v) (h : u ≠ .zero .negative) :
    (Float.Model.pack (UnpackedFloat.add Format.binary64 u v)).unpack ≠ .zero .negative := by
  have kept : ∀ w, Packs w → w ≠ .zero .negative →
      (Float.Model.pack w).unpack ≠ .zero .negative := by
    intro w packs differ
    rw [unpack_pack packs]
    exact differ
  have finite : ∀ {s m e} (pos : 0 < m), Canonical m e →
      (Float.Model.pack (.finite s m e pos)).unpack ≠ .zero .negative := by
    intro s m e pos canonical
    by_cases small : e ≤ 971
    · exact kept _ ⟨canonical, small⟩ nofun
    · rw [unpack_pack_of_large (by omega) pos]
      nofun
  cases u with
  | notANumber => exact kept .notANumber trivial nofun
  | infinity s =>
    cases v with
    | notANumber => exact kept .notANumber trivial nofun
    | infinity t =>
      cases s <;> cases t
      · exact kept (.infinity .negative) trivial nofun
      · exact kept .notANumber trivial nofun
      · exact kept .notANumber trivial nofun
      · exact kept (.infinity .positive) trivial nofun
    | _ => exact kept (.infinity s) trivial nofun
  | zero s =>
    cases s
    · exact absurd rfl h
    · cases v with
      | notANumber => exact kept .notANumber trivial nofun
      | infinity t => exact kept (.infinity t) trivial nofun
      | zero t => cases t <;> exact kept (.zero .positive) trivial nofun
      | finite t n d pos => exact finite pos hv.1
  | finite s m e pos =>
    cases v with
    | notANumber => exact kept .notANumber trivial nofun
    | infinity t => exact kept (.infinity t) trivial nofun
    | zero t => exact finite pos hu.1
    | finite t n d pos' =>
      have low : -1074 ≤ min e d := Int.le_min.2 ⟨hu.1.least, hv.1.least⟩
      show (Float.Model.pack (UnpackedFloat.normalize Format.binary64 _ (min e d) .positive)).unpack ≠ _
      rcases normalize_cases .positive low _ with ⟨-, none⟩ | ⟨r, q, j, h, some, canonical, -⟩
      · rw [none]
        exact kept (.zero .positive) trivial nofun
      · rw [some]
        exact finite h canonical

end GeneCalculus.Double
