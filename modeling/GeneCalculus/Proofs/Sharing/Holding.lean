import GeneCalculus.Arena.Unfolding

/-!
Names and trees. A name holds a tree if it is known and stands for it. Operations on names are
compared with operations on trees through this relation: an arena that grows keeps it, it is one to
one in both directions, and interning a node makes it.
-/

namespace GeneCalculus.Arena

variable {A B : Arena} {i j : NodeId} {n m : Node NodeId} {t u : Term}

/-- The name `i` is known and stands for the tree `t`. -/
def Holds (A : Arena) (i : NodeId) (t : Term) : Prop := i < A.size ∧ A.term i = t

/-- The node and the tree have the same form, and the children of one hold those of the other. -/
inductive Shows (A : Arena) : Node NodeId → Term → Prop
  | var (k : UInt32) : Shows A (.var k) (.var k.toNat)
  | atom (a : Atom) : Shows A (.atom a) (.atom a)
  | lam {c : NodeId} {b : Term} : A.Holds c b → Shows A (.lam c) (.lam b)
  | neg {c : NodeId} {x : Term} : A.Holds c x → Shows A (.neg c) (.neg x)
  | binary (form : Binary) {c d : NodeId} {x y : Term} : A.Holds c x → A.Holds d y →
      Shows A (.binary form c d) (.binary form x y)
  | ternary (form : Ternary) {c d e : NodeId} {x y z : Term} : A.Holds c x → A.Holds d y →
      A.Holds e z → Shows A (.ternary form c d e) (.ternary form x y z)
  | focus {c d e f : NodeId} {x y z w : Term} : A.Holds c x → A.Holds d y → A.Holds e z →
      A.Holds f w → Shows A (.focus c d e f) (.focus x y z w)

theorem exists_node? (known : i < A.size) : ∃ n, A.node? i = some n :=
  have below : i < A.nodes.size := known
  ⟨A.nodes[i], Array.getElem?_eq_getElem below⟩

theorem lt_size (found : A.node? i = some n) : i < A.size :=
  (Array.getElem?_eq_some_iff.1 found).1

theorem size_le (keep : A ≤ B) : A.size ≤ B.size := by
  rcases Nat.eq_zero_or_pos A.size with empty | some
  · exact empty ▸ Nat.zero_le _
  · obtain ⟨n, found⟩ := exists_node? (Nat.pred_lt_of_lt some)
    exact Nat.le_of_pred_lt (lt_size (keep _ n found))

theorem holds_term (known : i < A.size) : A.Holds i (A.term i) := ⟨known, rfl⟩

theorem Holds.unique (h : A.Holds i t) (k : A.Holds i u) : t = u := h.2.symm.trans k.2

theorem Holds.mono (h : A.Holds i t) (keep : A ≤ B) : B.Holds i t := by
  obtain ⟨n, found⟩ := exists_node? h.1
  exact ⟨lt_size (keep i n found), (term_of_le keep found).trans h.2⟩

theorem Holds.inj (h : A.Holds i t) (k : A.Holds j t) : i = j := by
  obtain ⟨n, hn⟩ := exists_node? h.1
  obtain ⟨m, hm⟩ := exists_node? k.1
  exact term_inj hn hm (h.2.trans k.2.symm)

theorem Holds.eq_iff (h : A.Holds i t) (k : A.Holds j u) : i = j ↔ t = u := by
  constructor
  · rintro rfl
    exact h.unique k
  · rintro rfl
    exact h.inj k

/-- Some name stands for the tree. -/
def Has (A : Arena) (t : Term) : Prop := ∃ i, A.Holds i t

theorem Has.mono (keep : A ≤ B) (h : A.Has t) : B.Has t := by
  obtain ⟨i, hi⟩ := h
  exact ⟨i, hi.mono keep⟩

theorem Shows.mono (h : A.Shows n t) (keep : A ≤ B) : B.Shows n t := by
  cases h with
  | var k => exact .var k
  | atom a => exact .atom a
  | lam x => exact .lam (x.mono keep)
  | neg x => exact .neg (x.mono keep)
  | binary form x y => exact .binary form (x.mono keep) (y.mono keep)
  | ternary form x y z => exact .ternary form (x.mono keep) (y.mono keep) (z.mono keep)
  | focus x y z w => exact .focus (x.mono keep) (y.mono keep) (z.mono keep) (w.mono keep)

theorem Shows.known (h : A.Shows n t) : ∀ c ∈ n.children, c < A.size := by
  cases h with
  | var | atom => simp [Node.children]
  | lam x | neg x => simpa [Node.children] using x.1
  | binary _ x y => simpa [Node.children] using ⟨x.1, y.1⟩
  | ternary _ x y z => simpa [Node.children] using ⟨x.1, y.1, z.1⟩
  | focus x y z w => simpa [Node.children] using ⟨x.1, y.1, z.1, w.1⟩

theorem Shows.ofNode (h : A.Shows n t) : Term.ofNode (n.mapChildren A.term) = t := by
  cases h with
  | var | atom => rfl
  | lam x | neg x => simp only [Node.mapChildren, Node.traverse, Term.ofNode, x.2]
  | binary _ x y => simp only [Node.mapChildren, Node.traverse, Term.ofNode, x.2, y.2]
  | ternary _ x y z => simp only [Node.mapChildren, Node.traverse, Term.ofNode, x.2, y.2, z.2]
  | focus x y z w => simp only [Node.mapChildren, Node.traverse, Term.ofNode, x.2, y.2, z.2, w.2]

theorem Shows.children (h : A.Shows n t) : n.children.map A.term = t.children := by
  cases h with
  | var | atom => rfl
  | lam x | neg x => simp only [Node.children, Term.children, List.map, x.2]
  | binary _ x y => simp only [Node.children, Term.children, List.map, x.2, y.2]
  | ternary _ x y z => simp only [Node.children, Term.children, List.map, x.2, y.2, z.2]
  | focus x y z w => simp only [Node.children, Term.children, List.map, x.2, y.2, z.2, w.2]

/-- A node that is there stands for a tree of its form. -/
theorem shows_term (found : A.node? i = some n) : A.Shows n (A.term i) := by
  have child : ∀ c ∈ n.children, A.Holds c (A.term c) := fun c mem =>
    holds_term (Nat.lt_trans (A.lt_of_mem_children found mem) (lt_size found))
  rw [term_of_node? found]
  cases n with
  | var k => exact .var k
  | atom a => exact .atom a
  | lam c => exact .lam (child c (by simp [Node.children]))
  | neg c => exact .neg (child c (by simp [Node.children]))
  | binary form c d =>
    exact .binary form (child c (by simp [Node.children])) (child d (by simp [Node.children]))
  | ternary form c d e =>
    exact .ternary form (child c (by simp [Node.children])) (child d (by simp [Node.children]))
      (child e (by simp [Node.children]))
  | focus c d e f =>
    exact .focus (child c (by simp [Node.children])) (child d (by simp [Node.children]))
      (child e (by simp [Node.children])) (child f (by simp [Node.children]))

theorem Holds.shows (h : A.Holds i t) (found : A.node? i = some n) : A.Shows n t :=
  h.2 ▸ shows_term found

theorem Holds.exists_shows (h : A.Holds i t) : ∃ n, A.node? i = some n ∧ A.Shows n t := by
  obtain ⟨n, found⟩ := exists_node? h.1
  exact ⟨n, found, h.shows found⟩

theorem Shows.holds (h : A.Shows n t) (found : A.node? i = some n) : A.Holds i t :=
  ⟨lt_size found, (term_of_node? found).trans h.ofNode⟩

/-- A node has the name that interning gives it, if its children are known. -/
theorem node?_intern (A : Arena) {n : Node NodeId} (known : ∀ c ∈ n.children, c < A.size) :
    (A.intern n).2.node? (A.intern n).1 = some n := by
  unfold intern
  split
  · rename_i i found
    exact (A.index_eq n i).1 found
  · rename_i fresh
    rw [dif_pos known, node?_append, if_pos rfl]

theorem Shows.intern (h : A.Shows n t) : (A.intern n).2.Holds (A.intern n).1 t :=
  (h.mono (A.le_intern n)).holds (node?_intern A h.known)

/-- Only one node shows a tree. -/
theorem Shows.unique (h : A.Shows n t) (k : A.Shows m t) : n = m := by
  have trees := h.ofNode.trans k.ofNode.symm
  refine Node.mapChildren_inj (Term.ofNode_injective trees) fun c hc d hd eq => ?_
  exact (holds_term (h.known c hc)).inj ⟨k.known d hd, eq.symm⟩

end GeneCalculus.Arena
