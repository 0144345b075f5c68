import Mathlib.Data.List.Perm.Subperm
import GeneCalculus.Order.Ascending

/-!
Ascending lists are determined by their members, so they can stand for finite sets.
-/

namespace GeneCalculus.Ascending

variable {α : Type} [DecidableEq α] [LT α] [DecidableLT α]
  [IsStrictTotalOrder α (· < ·)] {x : α} {xs ys : List α}

/-- The members of the list come in ascending order, each once. -/
abbrev Strict (xs : List α) : Prop := xs.Pairwise (· < ·)

theorem Strict.insert (h : Strict ys) : Strict (insert x ys) := by
  induction ys with
  | nil => exact List.pairwise_singleton ..
  | cons y ys ih =>
    have ⟨first, rest⟩ := List.pairwise_cons.1 h
    unfold Ascending.insert
    split
    · exact h
    · split
      · rename_i less
        apply List.pairwise_cons.2
        refine ⟨fun z hz => ?_, h⟩
        rcases List.mem_cons.1 hz with rfl | hz
        · exact less
        · exact Trans.trans less (first z hz)
      · rename_i differ notLess
        apply List.pairwise_cons.2
        refine ⟨fun z hz => ?_, ih rest⟩
        rcases mem_insert.1 hz with rfl | hz
        · rcases Std.lt_trichotomy z y with less | same | more
          · exact absurd less notLess
          · exact absurd same differ
          · exact more
        · exact first z hz

omit [DecidableEq α] [DecidableLT α] in
theorem Strict.nodup (h : Strict xs) : xs.Nodup := h.imp fun less => ne_of_irrefl less

omit [DecidableEq α] [DecidableLT α] in
theorem Strict.perm (hx : Strict xs) (hy : Strict ys) (same : ∀ z, z ∈ xs ↔ z ∈ ys) :
    xs.Perm ys :=
  (List.perm_ext_iff_of_nodup hx.nodup hy.nodup).2 same

omit [DecidableEq α] [DecidableLT α] in
/-- Ascending lists with the same members are equal. -/
theorem Strict.ext (hx : Strict xs) (hy : Strict ys) (same : ∀ z, z ∈ xs ↔ z ∈ ys) : xs = ys :=
  (hx.perm hy same).eq_of_pairwise
    (fun _ _ _ _ less more => absurd (Trans.trans less more) (irrefl _)) hx hy

theorem strict_sorted (xs : List α) : Strict (sorted xs) := by
  have all : ∀ ys : List α, Strict ys → Strict (xs.foldl (fun ys x => Ascending.insert x ys) ys) := by
    induction xs with
    | nil => exact fun _ strict => strict
    | cons x xs ih => exact fun ys strict => ih _ strict.insert
  exact all [] .nil

theorem sorted_congr (same : ∀ x, x ∈ xs ↔ x ∈ ys) : sorted xs = sorted ys :=
  (strict_sorted xs).ext (strict_sorted ys) fun x => by rw [mem_sorted, mem_sorted, same]

end GeneCalculus.Ascending
