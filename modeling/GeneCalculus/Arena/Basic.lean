import Std.Data.HashMap
import GeneCalculus.Expr.Extent

/-!
The arena: an append-only store of nodes in which equal nodes are one node. A node is named by its
position, and its children stand before it, so equal names mean equal expressions and a walk toward
the leaves ends. Each node carries the extent of its tree.
-/

namespace GeneCalculus

/-- The name of a node: its position in the arena. -/
abbrev NodeId := Nat

structure Arena where
  nodes : Array (Node NodeId)
  extents : Array Extent
  index : Std.HashMap (Node NodeId) NodeId
  index_eq : ∀ (n : Node NodeId) (i : NodeId), index[n]? = some i ↔ nodes[i]? = some n
  child_lt : ∀ (i : NodeId) (n : Node NodeId), nodes[i]? = some n → ∀ c ∈ n.children, c < i
  size_extents : extents.size = nodes.size
  extent_eq : ∀ (i : NodeId) (n : Node NodeId), nodes[i]? = some n →
    extents.getD i ⟨0, 0⟩ = n.extent fun c => extents.getD c ⟨0, 0⟩

namespace Arena

def empty : Arena where
  nodes := #[]
  extents := #[]
  index := ∅
  index_eq := by simp
  child_lt := by simp
  size_extents := rfl
  extent_eq := by simp

instance : Inhabited Arena := ⟨empty⟩

def size (A : Arena) : Nat := A.nodes.size

/-- The node behind a name. -/
def node? (A : Arena) (i : NodeId) : Option (Node NodeId) := A.nodes[i]?

/-- Number of nodes of the tree at `i`, up to `capacity`. -/
def treeSize (A : Arena) (i : NodeId) : Nat := (A.extents.getD i ⟨0, 0⟩).size

/-- Cost of the tree at `i`, up to `capacity`. -/
def cost (A : Arena) (i : NodeId) : Nat := (A.extents.getD i ⟨0, 0⟩).cost

theorem lt_of_mem_children {A : Arena} {i : NodeId} {n : Node NodeId} (h : A.node? i = some n)
    {c : NodeId} (hc : c ∈ n.children) : c < i :=
  A.child_lt i n h c hc

/-- Appends a node that is not there yet and whose children are. -/
def append (A : Arena) (n : Node NodeId) (fresh : A.index[n]? = none)
    (known : ∀ c ∈ n.children, c < A.size) : Arena where
  nodes := A.nodes.push n
  extents := A.extents.push (n.extent fun c => A.extents.getD c ⟨0, 0⟩)
  index := A.index.insert n A.size
  index_eq m i := by
    have old := A.index_eq m i
    have absent : ∀ j, A.nodes[j]? ≠ some n := fun j h => by
      rw [(A.index_eq n j).2 h] at fresh
      cases fresh
    rw [Std.HashMap.getElem?_insert, Array.getElem?_push]
    by_cases same : n = m
    · subst same
      simp only [beq_self_eq_true, ↓reduceIte, Option.some.injEq, size]
      by_cases last : i = A.nodes.size
      · simp only [last, ↓reduceIte]
      · simp only [last, ↓reduceIte, Ne.symm last, absent]
    · simp only [beq_iff_eq, same, ↓reduceIte, old]
      by_cases last : i = A.nodes.size
      · simp only [last, ↓reduceIte, Option.some.injEq, same, Array.getElem?_size,
          reduceCtorEq]
      · simp only [last, ↓reduceIte]
  child_lt i m h c hc := by
    rw [Array.getElem?_push] at h
    by_cases last : i = A.nodes.size
    · simp only [last, ↓reduceIte, Option.some.injEq] at h
      subst h
      exact last ▸ known c hc
    · simp only [last, ↓reduceIte] at h
      exact A.child_lt i m h c hc
  size_extents := by simp only [Array.size_push, A.size_extents]
  extent_eq i m h := by
    have below : ∀ c, c < A.size → ∀ e : Extent,
        (A.extents.push e).getD c ⟨0, 0⟩ = A.extents.getD c ⟨0, 0⟩ := fun c hc e => by
      have ne : c ≠ A.extents.size := by rw [A.size_extents]; exact Nat.ne_of_lt hc
      simp only [Array.getD_eq_getD_getElem?, Array.getElem?_push, ne, ↓reduceIte]
    rw [Array.getElem?_push] at h
    by_cases last : i = A.nodes.size
    · simp only [last, ↓reduceIte, Option.some.injEq] at h
      subst h
      rw [Node.extent_congr fun c hc => below c (known c hc) _]
      simp only [last, ← A.size_extents, Array.getD_eq_getD_getElem?, Array.getElem?_push_size,
        Option.getD_some]
    · simp only [last, ↓reduceIte] at h
      have bound : i < A.size := (Array.getElem?_eq_some_iff.1 h).1
      rw [below i bound, A.extent_eq i m h]
      exact Node.extent_congr fun c hc =>
        (below c (Nat.lt_trans (A.child_lt i m h c hc) bound) _).symm

/-- The name of a node, which is appended if no equal one is there. A node with an unknown child is
not appended, and the name it gets is unknown too. -/
def intern (A : Arena) (n : Node NodeId) : NodeId × Arena :=
  match h : A.index[n]? with
  | some i => (i, A)
  | none =>
    if known : ∀ c ∈ n.children, c < A.size then (A.size, A.append n h known) else (A.size, A)

/-- `B` holds all that `A` holds, under the same names. -/
protected def le (A B : Arena) : Prop := ∀ i n, A.node? i = some n → B.node? i = some n

instance : LE Arena := ⟨Arena.le⟩

protected theorem le_refl (A : Arena) : A ≤ A := fun _ _ h => h

protected theorem le_trans {A B C : Arena} (h : A ≤ B) (k : B ≤ C) : A ≤ C :=
  fun i n hi => k i n (h i n hi)

theorem node?_append {A : Arena} {n : Node NodeId} (fresh : A.index[n]? = none)
    (known : ∀ c ∈ n.children, c < A.size) (i : NodeId) :
    (A.append n fresh known).node? i = if i = A.size then some n else A.node? i :=
  Array.getElem?_push

theorem le_append {A : Arena} {n : Node NodeId} (fresh : A.index[n]? = none)
    (known : ∀ c ∈ n.children, c < A.size) : A ≤ A.append n fresh known := by
  intro i m h
  have bound : i < A.size := (Array.getElem?_eq_some_iff.1 h).1
  rw [node?_append, if_neg (Nat.ne_of_lt bound), h]

theorem le_intern (A : Arena) (n : Node NodeId) : A ≤ (A.intern n).2 := by
  unfold intern
  split
  · exact A.le_refl
  · rename_i fresh
    split
    · rename_i known
      exact le_append fresh known
    · exact A.le_refl

/-- Interning a node that is there gives its name and changes nothing. -/
theorem intern_of_node? {A : Arena} {i : NodeId} {n : Node NodeId} (h : A.node? i = some n) :
    A.intern n = (i, A) := by
  have found := (A.index_eq n i).2 h
  unfold intern
  split
  · rename_i j hj
    rw [found] at hj
    cases hj
    rfl
  · rename_i hj
    rw [found] at hj
    cases hj

/-- Distinct names stand for distinct nodes. -/
theorem node?_inj {A : Arena} {i j : NodeId} {n : Node NodeId} (hi : A.node? i = some n)
    (hj : A.node? j = some n) : i = j := by
  have := (A.index_eq n i).2 hi
  rw [(A.index_eq n j).2 hj] at this
  cases this
  rfl

end Arena

end GeneCalculus
