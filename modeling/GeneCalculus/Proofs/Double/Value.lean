import GeneCalculus.Proofs.Double.Quotient

/-!
What the operations on doubles do to the values that the doubles stand for.
-/

namespace GeneCalculus.Double

open Float.Model UnpackedFloat

variable {x y : Float} {k : Int}

/-- What a double stands for. -/
def value (x : Float) : UnpackedFloat := x.toModel.unpack

theorem packs_value (x : Float) : Packs (value x) := packs_unpack x.toModel

theorem value_injective (h : value x = value y) : x = y := by
  have packed := congrArg Float.Model.pack h
  unfold value at packed
  rw [pack_unpack, pack_unpack] at packed
  calc
    x = .ofModel x.toModel := rfl
    _ = .ofModel y.toModel := by rw [packed]
    _ = y := rfl

theorem value_add (x y : Float) : value (x + y) =
    (Float.Model.pack (UnpackedFloat.add Format.binary64 (value x) (value y))).unpack := rfl

theorem value_sub (x y : Float) : value (x - y) =
    (Float.Model.pack (UnpackedFloat.sub Format.binary64 (value x) (value y))).unpack := rfl

theorem value_mul (x y : Float) : value (x * y) =
    (Float.Model.pack (UnpackedFloat.mul Format.binary64 (value x) (value y))).unpack := rfl

theorem value_div (x y : Float) : value (x / y) =
    (Float.Model.pack (UnpackedFloat.div Format.binary64 (value x) (value y))).unpack := rfl

theorem isNaN_iff : x.isNaN ↔ value x = .notANumber := by
  show (value x).isNaN ↔ _
  cases value x with
  | notANumber => exact ⟨fun _ => rfl, fun _ => rfl⟩
  | _ => exact ⟨nofun, nofun⟩

theorem value_zero : value 0.0 = .zero .positive := rfl

theorem lt_iff_compare : x < y ↔ (value x).compare (value y) = some .lt := by
  have decided : x < y ↔ ((value x).compare (value y) == some .lt) := by
    show (decide (_ = true)) = true ↔ _
    exact decide_eq_true_iff
  rw [decided, beq_iff_eq]

theorem lt_iff (hx : x.isFinite) (hy : y.isFinite) : x < y ↔ units (value x) < units (value y) := by
  rw [lt_iff_compare, compare_units (packs_value x) (packs_value y) hx hy, Option.some_inj,
    Int.compare_eq_lt]

theorem unpack_pack_notANumber :
    (Float.Model.pack .notANumber).unpack = .notANumber := unpack_pack trivial

theorem isNaN_add_left (h : x.isNaN) : (x + y).isNaN := by
  rw [isNaN_iff] at h ⊢
  rw [value_add, h]
  exact unpack_pack_notANumber

theorem isNaN_add_right (h : y.isNaN) : (x + y).isNaN := by
  rw [isNaN_iff] at h ⊢
  rw [value_add, h]
  cases value x <;> exact unpack_pack_notANumber

theorem isNaN_sub_right (h : y.isNaN) : (x - y).isNaN := by
  rw [isNaN_iff] at h ⊢
  rw [value_sub, h]
  cases value x <;> exact unpack_pack_notANumber

theorem isNaN_mul_right (h : y.isNaN) : (x * y).isNaN := by
  rw [isNaN_iff] at h ⊢
  rw [value_mul, h]
  cases value x <;> exact unpack_pack_notANumber

/-- Zero is neutral, except that it takes the sign of a negative zero. -/
theorem add_zero_eq (h : value x ≠ .zero .negative) : x + 0.0 = x := by
  apply value_injective
  rw [value_add, value_zero, add_zero h]
  exact unpack_pack (packs_value x)

theorem value_add_ne (h : value x ≠ .zero .negative) : value (x + y) ≠ .zero .negative :=
  add_ne_negative_zero (packs_value x) (packs_value y) h

theorem value_sub_nearest (hx : x.isFinite) (hy : y.isFinite) :
    Nearest (units (value x) - units (value y)) (value (x - y)) :=
  sub_nearest (packs_value x) (packs_value y) hx hy

theorem value_div_within {w z : Int} (hx : Nearest w (value x)) (hy : Nearest z (value y))
    (nonzero : z ≠ 0) (le : w.natAbs ≤ z.natAbs) :
    (x / y).isNaN ∨ Within (-51) (value (x / y)) := by
  rw [isNaN_iff, value_div]
  rcases quotient_within hx hy nonzero le with noNumber | within
  · rw [noNumber]
    exact .inl unpack_pack_notANumber
  · rw [unpack_pack (within.packs (by decide))]
    exact .inr within

end GeneCalculus.Double
