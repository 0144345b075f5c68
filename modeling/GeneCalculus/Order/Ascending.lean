/-!
Ascending lists without repetitions. `mem_sorted` says that sorting keeps the members.
-/

namespace GeneCalculus.Ascending

variable {α : Type} [DecidableEq α] [LT α] [DecidableLT α]

/-- Puts `x` into an ascending list, unless it is there. -/
def insert (x : α) : List α → List α
  | [] => [x]
  | y :: ys => if x = y then y :: ys else if x < y then x :: y :: ys else y :: insert x ys

theorem mem_insert {x y : α} {ys : List α} : y ∈ insert x ys ↔ y = x ∨ y ∈ ys := by
  induction ys with
  | nil => simp only [insert, List.mem_singleton, List.not_mem_nil, or_false]
  | cons z zs ih =>
    unfold insert
    split
    · rename_i same
      subst same
      simp only [List.mem_cons, or_self_left]
    · split
      · simp only [List.mem_cons]
      · simp only [List.mem_cons, ih, or_left_comm]

/-- The distinct members of a list in ascending order. -/
def sorted (xs : List α) : List α := xs.foldl (fun ys x => insert x ys) []

theorem mem_foldl_insert {y : α} {xs ys : List α} :
    y ∈ xs.foldl (fun ys x => insert x ys) ys ↔ y ∈ xs ∨ y ∈ ys := by
  induction xs generalizing ys with
  | nil => simp only [List.foldl_nil, List.not_mem_nil, false_or]
  | cons x xs ih => rw [List.foldl_cons, ih, mem_insert, List.mem_cons, or_left_comm, or_assoc]

theorem mem_sorted {y : α} {xs : List α} : y ∈ sorted xs ↔ y ∈ xs := by
  simp only [sorted, mem_foldl_insert, List.not_mem_nil, or_false]

end GeneCalculus.Ascending
