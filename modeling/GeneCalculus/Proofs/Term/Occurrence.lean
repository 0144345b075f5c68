import GeneCalculus.Proofs.Sharing.Measure
import GeneCalculus.Proofs.Term.Parts

/-!
Where parts stand in a tree, counted in the binders above them. `depth` bounds that count, and
`level` tells how far the variables of a tree point past its own binders. Going down to a part, the
level rises by one at most at each binder.
-/

namespace GeneCalculus.Term

/-- The tree `u` stands in `t` under `d` of its binders. -/
inductive Contains : Term → Nat → Term → Prop
  | self (t : Term) : Contains t 0 t
  | part {t c u : Term} {d : Nat} : c ∈ t.children → Contains c d u → Contains t (d + t.binders) u

/-- The most binders above a part. -/
def depth : Term → Nat
  | var _ | atom _ => 0
  | lam a => a.depth + 1
  | neg a => a.depth
  | binary _ a b => max a.depth b.depth
  | ternary _ a b c => max (max a.depth b.depth) c.depth
  | focus a b c d => max (max (max a.depth b.depth) c.depth) d.depth

/-- How many binders around the tree its variables ask for. -/
def level : Term → Nat
  | var k => k + 1
  | atom _ => 0
  | lam a => a.level - 1
  | neg a => a.level
  | binary _ a b => max a.level b.level
  | ternary _ a b c => max (max a.level b.level) c.level
  | focus a b c d => max (max (max a.level b.level) c.level) d.level

/-- No variable points past all binders. -/
abbrev Closed (t : Term) : Prop := t.level = 0

variable {t u v c : Term} {d e k n : Nat}

theorem binders_le_one (t : Term) : t.binders ≤ 1 := by
  cases t <;> simp only [binders] <;> decide

theorem Contains.trans (h : t.Contains d u) (k : u.Contains e v) : t.Contains (d + e) v := by
  induction h with
  | self t => rwa [Nat.zero_add]
  | @part t c u d mem _ ih => exact Nat.add_right_comm d e t.binders ▸ .part mem (ih k)

theorem Contains.size (h : t.Contains d u) : u.size + d ≤ t.size := by
  induction h with
  | self t => exact Nat.le_refl _
  | @part t c u d mem _ ih =>
    have smaller := size_lt_of_mem_children mem
    have few := t.binders_le_one
    omega

theorem depth_of_mem_children (mem : c ∈ t.children) : c.depth + t.binders ≤ t.depth := by
  cases t <;> simp only [children, List.mem_cons, List.not_mem_nil, or_false] at mem <;>
    simp only [depth, binders] <;> rcases mem with rfl | rfl | rfl | rfl <;> omega

theorem Contains.depth (h : t.Contains d u) : u.depth + d ≤ t.depth := by
  induction h with
  | self t => exact Nat.le_refl _
  | @part t c u d mem _ ih =>
    have deeper := depth_of_mem_children mem
    omega

theorem exists_deepest (t : Term) :
    t.depth = 0 ∨ ∃ c ∈ t.children, c.depth + t.binders = t.depth := by
  refine Classical.byContradiction fun none => ?_
  obtain ⟨some, none⟩ := not_or.1 none
  have below : ∀ c ∈ t.children, c.depth + t.binders < t.depth := fun c mem =>
    Nat.lt_of_le_of_ne (depth_of_mem_children mem) fun same => none ⟨c, mem, same⟩
  cases t with
  | var | atom => exact some rfl
  | _ =>
    simp only [children, List.forall_mem_cons, List.not_mem_nil, false_imp_iff, implies_true,
      and_true, depth, binders] at below some
    omega

theorem exists_contains_depth (t : Term) : ∃ u, t.Contains t.depth u := by
  induction t using child_induction with
  | step t ih =>
    rcases t.exists_deepest with zero | ⟨c, mem, same⟩
    · exact ⟨t, zero ▸ .self t⟩
    · obtain ⟨u, h⟩ := ih c mem
      exact ⟨u, same ▸ .part mem h⟩

theorem level_of_mem_children (mem : c ∈ t.children) : c.level ≤ t.level + t.binders := by
  cases t <;> simp only [children, List.mem_cons, List.not_mem_nil, or_false] at mem <;>
    simp only [level, binders] <;> rcases mem with rfl | rfl | rfl | rfl <;> omega

theorem level_le_of_children (own : ∀ k, t = var k → k < n)
    (parts : ∀ c ∈ t.children, c.level ≤ n + t.binders) : t.level ≤ n := by
  cases t with
  | var k => exact own k rfl
  | _ =>
    simp only [children, List.forall_mem_cons, List.not_mem_nil, false_imp_iff, implies_true,
      and_true, binders] at parts
    simp only [level]
    omega

theorem Contains.level (h : t.Contains d u) : u.level ≤ t.level + d := by
  induction h with
  | self t => exact Nat.le_refl _
  | @part t c u d mem _ ih =>
    have above := level_of_mem_children mem
    omega

/-- The level bounds how far the variables point past the binders above them. -/
theorem level_le_iff : t.level ≤ n ↔ ∀ d k, t.Contains d (var k) → k < n + d := by
  constructor
  · intro le d k h
    have above := h.level
    simp only [Term.level] at above
    omega
  · intro inside
    induction t using child_induction generalizing n with
    | step t ih =>
      refine level_le_of_children (fun k same => ?_) fun c mem => ih c mem fun d k h => ?_
      · exact inside 0 k (same ▸ .self _)
      · have below := inside _ k (.part mem h)
        omega

theorem Everywhere.contains {P : Term → Prop} (all : t.Everywhere P) (h : t.Contains d u) :
    u.Everywhere P := by
  induction h with
  | self t => exact all
  | part mem _ ih => exact ih (all.child mem)

theorem everywhere_of_contains {P : Term → Prop} (all : ∀ d u, t.Contains d u → P u) :
    t.Everywhere P := by
  induction t using child_induction with
  | step t ih =>
    exact .intro (all 0 t (.self t)) fun c mem =>
      ih c mem fun d u inside => all (d + t.binders) u (.part mem inside)

/-- The trees `p 0`, …, `p d` stand in each other, with a binder between each two neighbours. -/
def Chain (p : Nat → Term) (d : Nat) : Prop :=
  ∀ i j, i ≤ j → j ≤ d → (p i).Contains (j - i) (p j)

theorem Contains.exists_chain (h : t.Contains d u) :
    ∃ p, Chain p d ∧ t.Contains 0 (p 0) ∧ p d = u := by
  induction h with
  | self t =>
    refine ⟨fun _ => t, fun i j le le' => ?_, .self t, rfl⟩
    have same : j - i = 0 := by omega
    exact same ▸ .self t
  | @part t c u d mem _ ih =>
    obtain ⟨p, chain, top, last⟩ := ih
    have few := t.binders_le_one
    by_cases bare : t.binders = 0
    · have top' := Contains.part mem top
      rw [bare] at top' ⊢
      exact ⟨p, chain, top', last⟩
    · have one : t.binders = 1 := by omega
      have inside : ∀ j, j ≤ d → t.Contains (j + 1) (p j) := fun j le => by
        have below := top.trans (chain 0 j (Nat.zero_le j) le)
        rw [Nat.zero_add, Nat.sub_zero] at below
        exact one ▸ .part mem below
      rw [one]
      refine ⟨fun i => Nat.casesOn i t p, fun i j le le' => ?_, .self t, last⟩
      cases i with
      | zero =>
        cases j with
        | zero => exact .self t
        | succ j => exact inside j (Nat.le_of_succ_le_succ le')
      | succ i =>
        cases j with
        | zero => exact absurd le (Nat.not_succ_le_zero i)
        | succ j =>
          rw [Nat.succ_sub_succ]
          exact chain i j (Nat.le_of_succ_le_succ le) (Nat.le_of_succ_le_succ le')

theorem Chain.size_lt {p : Nat → Term} (chain : Chain p n) {i j : Nat} (less : i < j) (le : j ≤ n) :
    (p j).size < (p i).size := by
  have smaller := (chain i j (Nat.le_of_lt less) le).size
  omega

end GeneCalculus.Term
