import GeneCalculus.Expr.Node

/-!
How large an expression is: the number of nodes of its tree and the static cost of running it. Both
count a shared part once for each place where it stands, and neither counts beyond `capacity`.
-/

namespace GeneCalculus

/-- The largest size or cost that is told apart from larger ones. -/
def capacity : Nat := 0xffffffffffffffff

structure Extent where
  size : Nat
  cost : Nat
  deriving DecidableEq, Inhabited

namespace Node

variable {α : Type}

/-- The cost of the node itself: a traversal of a collection costs three, a fused one four, anything
else one. A fused traversal is so cheaper than the two it stands for. -/
def weight : Node α → Nat
  | .map _ _ | .filter _ _ | .reduce _ _ _ => 3
  | .focus _ _ _ _ => 4
  | _ => 1

/-- The sum of a node's own part and its children's, up to `capacity`. -/
def total (n : Node α) (own : Nat) (of : α → Nat) : Nat :=
  n.children.foldl (fun sum c => min (sum + of c) capacity) own

/-- The extent of a node from those of its children. -/
def extent (n : Node α) (of : α → Extent) : Extent :=
  ⟨n.total 1 fun c => (of c).size, n.total n.weight fun c => (of c).cost⟩

theorem total_congr {n : Node α} {own : Nat} {f g : α → Nat}
    (same : ∀ c ∈ n.children, f c = g c) : n.total own f = n.total own g := by
  cases n <;> simp only [children, List.mem_cons, List.not_mem_nil, or_false, forall_eq_or_imp,
    forall_eq] at same <;> simp only [total, children, List.foldl_cons, List.foldl_nil, same]

theorem extent_congr {n : Node α} {f g : α → Extent} (same : ∀ c ∈ n.children, f c = g c) :
    n.extent f = n.extent g := by
  simp only [extent, Extent.mk.injEq]
  exact ⟨total_congr fun c h => by rw [same c h], total_congr fun c h => by rw [same c h]⟩

end Node

end GeneCalculus
