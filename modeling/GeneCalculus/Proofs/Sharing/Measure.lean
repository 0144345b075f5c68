import GeneCalculus.Proofs.Sharing.Holding
import Mathlib.Algebra.Ring.Nat

/-!
The measures that an arena keeps with its nodes are those of the trees, up to `capacity`, however
much is shared.
-/

namespace GeneCalculus

namespace Term

/-- Number of nodes. -/
def size : Term → Nat
  | var _ | atom _ => 1
  | lam a | neg a => 1 + a.size
  | binary _ a b => 1 + a.size + b.size
  | ternary _ a b c => 1 + a.size + b.size + c.size
  | focus a b c d => 1 + a.size + b.size + c.size + d.size

/-- Cost of a form with two parts, without them. -/
def binaryWeight : Binary → Nat
  | .map | .filter => 3
  | .app | .compose | .arith _ => 1

/-- Cost of a form with three parts, without them. -/
def ternaryWeight : Ternary → Nat
  | .reduce => 3
  | .choose => 1

/-- Cost, without a bound. -/
def cost : Term → Nat
  | var _ | atom _ => 1
  | lam a | neg a => 1 + a.cost
  | binary form a b => binaryWeight form + a.cost + b.cost
  | ternary form a b c => ternaryWeight form + a.cost + b.cost + c.cost
  | focus a b c d => 4 + a.cost + b.cost + c.cost + d.cost

/-- Cost of a form, without its parts. -/
def weight : Term → Nat
  | var _ | atom _ | lam _ | neg _ => 1
  | binary form _ _ => binaryWeight form
  | ternary form _ _ _ => ternaryWeight form
  | focus _ _ _ _ => 4

theorem size_eq (t : Term) : t.size = 1 + (t.children.map size).sum := by
  cases t <;> simp [size, children, Nat.add_assoc]

theorem size_pos (t : Term) : 0 < t.size := by
  rw [size_eq]
  omega

theorem cost_eq (t : Term) : t.cost = t.weight + (t.children.map cost).sum := by
  cases t <;> simp [cost, weight, children, Nat.add_assoc]

/-- Cost as the engine tells it, up to `capacity`. -/
def price (t : Term) : Nat := min t.cost capacity

theorem size_lt_of_mem_children {c t : Term} (mem : c ∈ t.children) : c.size < t.size := by
  cases t <;> simp only [children, List.mem_cons, List.not_mem_nil, or_false] at mem <;>
    simp only [size] <;> rcases mem with rfl | rfl | rfl | rfl <;> omega

theorem cost_le_of_mem_children {c t : Term} (mem : c ∈ t.children) : c.cost ≤ t.cost := by
  cases t <;> simp only [children, List.mem_cons, List.not_mem_nil, or_false] at mem <;>
    simp only [cost] <;> rcases mem with rfl | rfl | rfl | rfl <;> omega

theorem binaryWeight_pos (form : Binary) : 0 < binaryWeight form := by
  cases form <;> simp [binaryWeight]

theorem ternaryWeight_pos (form : Ternary) : 0 < ternaryWeight form := by
  cases form <;> simp [ternaryWeight]

theorem size_le_cost (t : Term) : t.size ≤ t.cost := by
  induction t with
  | var | atom => simp [size, cost]
  | lam _ ih | neg _ ih => simp only [size, cost]; omega
  | binary form _ _ ih₁ ih₂ =>
    have := binaryWeight_pos form
    simp only [size, cost]
    omega
  | ternary form _ _ _ ih₁ ih₂ ih₃ =>
    have := ternaryWeight_pos form
    simp only [size, cost]
    omega
  | focus _ _ _ _ ih₁ ih₂ ih₃ ih₄ => simp only [size, cost]; omega

end Term

namespace Node

variable {α : Type}

/-- Parts that are told up to `capacity` give the same total up to it. -/
theorem total_capped (n : Node α) {own : Nat} (small : own ≤ capacity) (of : α → Nat) :
    n.total own (fun c => min (of c) capacity) = min (own + (n.children.map of).sum) capacity := by
  unfold total
  induction n.children generalizing own with
  | nil => simpa using (Nat.min_eq_left small).symm
  | cons c rest ih =>
    rw [List.foldl_cons, ih (Nat.min_le_right _ _), List.map_cons, List.sum_cons]
    simp only []
    omega

theorem weight_le_capacity (n : Node α) : n.weight ≤ capacity := by
  have small : n.weight ≤ 4 := by unfold weight; split <;> decide
  exact Nat.le_trans small (by decide)

end Node

namespace Arena

variable {A : Arena} {i : NodeId} {n : Node NodeId} {t : Term}

/-- A node weighs as much as its tree does without the parts. -/
theorem Shows.weight (h : A.Shows n t) : n.weight = t.weight := by
  cases h with
  | var | atom | lam | neg | focus => rfl
  | binary form => cases form <;> rfl
  | ternary form => cases form <;> rfl

theorem Shows.sum_children (h : A.Shows n t) (of : Term → Nat) :
    (n.children.map fun c => of (A.term c)).sum = (t.children.map of).sum := by
  rw [← h.children, List.map_map]
  rfl

theorem extent_term (known : i < A.size) : A.extents.getD i ⟨0, 0⟩ =
    ⟨min (A.term i).size capacity, min (A.term i).cost capacity⟩ := by
  induction i using Nat.strongRecOn with
  | ind i ih =>
    obtain ⟨n, found⟩ := exists_node? known
    have shown := shows_term found
    rw [A.extent_eq i n found, Node.extent_congr fun c mem =>
      ih c (A.lt_of_mem_children found mem) (shown.known c mem)]
    rw [Node.extent, Node.total_capped n (by decide), Node.total_capped n n.weight_le_capacity,
      shown.sum_children Term.size, shown.sum_children Term.cost, shown.weight,
      ← Term.size_eq, ← Term.cost_eq]

theorem Holds.treeSize (h : A.Holds i t) : A.treeSize i = min t.size capacity := by
  rw [Arena.treeSize, extent_term h.1, h.2]

theorem Holds.cost (h : A.Holds i t) : A.cost i = t.price := by
  rw [Arena.cost, extent_term h.1, h.2, Term.price]

end Arena

end GeneCalculus
