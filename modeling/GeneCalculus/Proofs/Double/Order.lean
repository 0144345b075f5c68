import Mathlib.Order.Compare
import Mathlib.Order.WithBot
import GeneCalculus.Proofs.Double.Value

/-!
The order of doubles. All that are numbers, the infinities included, are compared by their place on
one line, where both zeros stand together; what is no number is neither below nor above anything.
-/

namespace GeneCalculus.Double

open Float.Model UnpackedFloat

variable {u v : UnpackedFloat} {x y z : Float}

/-- The place of a double among all that are numbers. -/
def height : UnpackedFloat → WithBot (WithTop Int)
  | .infinity .negative => ⊥
  | .infinity .positive => ⊤
  | u => ((units u : WithTop Int) : WithBot (WithTop Int))

theorem height_finite (fu : u.isFinite) :
    height u = ((units u : WithTop Int) : WithBot (WithTop Int)) := by
  cases u with
  | infinity => cases fu
  | _ => rfl

theorem compare_coe (a b : Int) :
    compare ((a : WithTop Int) : WithBot (WithTop Int)) ((b : WithTop Int) : WithBot (WithTop Int)) =
      compare a b := by
  rcases Int.lt_trichotomy a b with less | rfl | more
  · rw [compare_lt_iff_lt.2 less]
    exact compare_lt_iff_lt.2 (WithBot.coe_lt_coe.2 (WithTop.coe_lt_coe.2 less))
  · rw [compare_eq_iff_eq.2 rfl, compare_eq_iff_eq.2 rfl]
  · rw [compare_gt_iff_gt.2 more]
    exact compare_gt_iff_gt.2 (WithBot.coe_lt_coe.2 (WithTop.coe_lt_coe.2 more))

/-- Doubles that are numbers compare as their places do. -/
theorem compare_height (hu : Packs u) (hv : Packs v) (nu : u ≠ .notANumber)
    (nv : v ≠ .notANumber) : u.compare v = some (compare (height u) (height v)) := by
  by_cases finite : u.isFinite ∧ v.isFinite
  · have ⟨fu, fv⟩ := finite
    rw [compare_units hu hv fu fv, height_finite fu, height_finite fv, compare_coe]
  · cases u with
    | notANumber => exact absurd rfl nu
    | infinity s =>
      cases v with
      | notANumber => exact absurd rfl nv
      | infinity t => cases s <;> cases t <;> rfl
      | _ => cases s <;> rfl
    | _ =>
      cases v with
      | notANumber => exact absurd rfl nv
      | infinity t => cases t <;> rfl
      | _ => exact absurd ⟨rfl, rfl⟩ finite

theorem compare_none (h : ¬(u ≠ .notANumber ∧ v ≠ .notANumber)) : u.compare v = none := by
  rcases not_and_or.1 h with noNumber | noNumber
  · rw [not_not.1 noNumber]
    rfl
  · rw [not_not.1 noNumber]
    cases u <;> rfl

theorem numbers_iff : (¬x.isNaN ∧ ¬y.isNaN) ↔ value x ≠ .notANumber ∧ value y ≠ .notANumber := by
  rw [isNaN_iff, isNaN_iff]

theorem lt_iff_height : x < y ↔ (¬x.isNaN ∧ ¬y.isNaN) ∧ height (value x) < height (value y) := by
  rw [lt_iff_compare, numbers_iff]
  by_cases numbers : value x ≠ .notANumber ∧ value y ≠ .notANumber
  · rw [compare_height (packs_value x) (packs_value y) numbers.1 numbers.2, Option.some_inj,
      compare_lt_iff_lt]
    exact (and_iff_right numbers).symm
  · rw [compare_none numbers]
    exact ⟨nofun, fun h => absurd h.1 numbers⟩

theorem le_iff_height : x ≤ y ↔ (¬x.isNaN ∧ ¬y.isNaN) ∧ height (value x) ≤ height (value y) := by
  have decided : x ≤ y ↔ ((value x).compare (value y)).any (·.isLE) := by
    show (decide (_ = true)) = true ↔ _
    exact decide_eq_true_iff
  rw [decided, numbers_iff]
  by_cases numbers : value x ≠ .notANumber ∧ value y ≠ .notANumber
  · rw [compare_height (packs_value x) (packs_value y) numbers.1 numbers.2, Option.any_some,
      Ordering.isLE_iff_ne_gt, ← ne_eq, compare_le_iff_le]
    exact (and_iff_right numbers).symm
  · rw [compare_none numbers]
    exact ⟨nofun, fun h => absurd h.1 numbers⟩

theorem not_lt_of_lt (h : x < y) : ¬y < x := by
  intro k
  exact (lt_iff_height.1 h).2.not_gt (lt_iff_height.1 k).2

theorem le_of_le_of_le (h : x ≤ y) (k : y ≤ z) : x ≤ z := by
  obtain ⟨⟨hx, -⟩, low⟩ := le_iff_height.1 h
  obtain ⟨⟨-, hz⟩, high⟩ := le_iff_height.1 k
  exact le_iff_height.2 ⟨⟨hx, hz⟩, low.trans high⟩

/-- Between doubles that are numbers, not to be below is transitive. -/
theorem not_lt_trans (hx : ¬x.isNaN) (hy : ¬y.isNaN) (hz : ¬z.isNaN) (h : ¬y < x) (k : ¬z < y) :
    ¬z < x := by
  rw [lt_iff_height, and_iff_right ⟨hy, hx⟩, not_lt] at h
  rw [lt_iff_height, and_iff_right ⟨hz, hy⟩, not_lt] at k
  rw [lt_iff_height, and_iff_right ⟨hz, hx⟩, not_lt]
  exact h.trans k

end GeneCalculus.Double
