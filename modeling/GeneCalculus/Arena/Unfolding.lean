import GeneCalculus.Arena.Basic

/-!
The tree that a name stands for. An arena that grows keeps the trees of its names, and two names of
one arena stand for equal trees only if they are equal, so sharing never shows in a tree.
-/

namespace GeneCalculus

/-- An expression as a tree, with nothing shared and no bound on the indices of variables. -/
inductive Term
  | var (index : Nat)
  | atom (a : Atom)
  | lam (body : Term)
  | neg (x : Term)
  | binary (form : Binary) (a b : Term)
  | ternary (form : Ternary) (a b c : Term)
  | focus (xs p f drop : Term)
  deriving DecidableEq, Inhabited

namespace Term

@[match_pattern] abbrev const (v : Literal) : Term := .atom (.const v)
@[match_pattern] abbrev bool (b : Bool) : Term := .const (.bool b)
@[match_pattern] abbrev ident : Term := .atom .ident
@[match_pattern] abbrev app (f x : Term) : Term := .binary .app f x
@[match_pattern] abbrev map (f xs : Term) : Term := .binary .map f xs
@[match_pattern] abbrev filter (p xs : Term) : Term := .binary .filter p xs
@[match_pattern] abbrev compose (f g : Term) : Term := .binary .compose f g
@[match_pattern] abbrev arith (op : Operator) (l r : Term) : Term := .binary (.arith op) l r
@[match_pattern] abbrev choose (cond yes no : Term) : Term := .ternary .choose cond yes no

/-- The tree of a node whose children are trees. -/
def ofNode : Node Term → Term
  | .var k => .var k.toNat
  | .atom a => .atom a
  | .lam a => .lam a
  | .neg a => .neg a
  | .binary form a b => .binary form a b
  | .ternary form a b c => .ternary form a b c
  | .focus a b c d => .focus a b c d

/-- The children in written order. -/
def children : Term → List Term
  | var _ | atom _ => []
  | lam a | neg a => [a]
  | binary _ a b => [a, b]
  | ternary _ a b c => [a, b, c]
  | focus a b c d => [a, b, c, d]

/-- What holds of a tree as soon as it holds of its children holds of all trees. -/
theorem child_induction {motive : Term → Prop} (step : ∀ t, (∀ c ∈ t.children, motive c) → motive t)
    (t : Term) : motive t := by
  induction t <;> apply step <;> simp_all [children]

theorem ofNode_injective {n m : Node Term} (same : ofNode n = ofNode m) : n = m := by
  cases n <;> cases m <;> simp_all [ofNode, UInt32.toNat_inj]

end Term

namespace Arena

/-- The tree at `i`. A name that is not known stands for a variable. -/
def term (A : Arena) (i : NodeId) : Term :=
  match h : A.node? i with
  | none => .var 0
  | some n =>
    .ofNode (n.traverse () fun c hc _ =>
      have : c < i := A.lt_of_mem_children h hc
      (A.term c, ())).1
  termination_by i

theorem term_of_node? {A : Arena} {i : NodeId} {n : Node NodeId} (h : A.node? i = some n) :
    A.term i = .ofNode (n.mapChildren A.term) := by
  unfold term
  split
  · rename_i absent
    rw [h] at absent
    cases absent
  · rename_i m found
    rw [h] at found
    cases found
    rfl

/-- The children of a node that is there are there too. -/
theorem exists_child {A : Arena} {i : NodeId} {n : Node NodeId} (h : A.node? i = some n)
    {c : NodeId} (hc : c ∈ n.children) : ∃ m, A.node? c = some m := by
  have bound : i < A.nodes.size := (Array.getElem?_eq_some_iff.1 h).1
  have below : c < A.nodes.size := Nat.lt_trans (A.lt_of_mem_children h hc) bound
  exact ⟨A.nodes[c], Array.getElem?_eq_getElem below⟩

theorem term_of_le {A B : Arena} (keep : A ≤ B) {i : NodeId} {n : Node NodeId}
    (h : A.node? i = some n) : B.term i = A.term i := by
  induction i using Nat.strongRecOn generalizing n with
  | ind i ih =>
    rw [term_of_node? h, term_of_node? (keep i n h)]
    refine congrArg Term.ofNode (Node.mapChildren_congr fun c hc => ?_)
    obtain ⟨m, hm⟩ := exists_child h hc
    exact ih c (A.lt_of_mem_children h hc) hm

theorem term_inj {A : Arena} {i j : NodeId} {n m : Node NodeId} (hi : A.node? i = some n)
    (hj : A.node? j = some m) (same : A.term i = A.term j) : i = j := by
  induction i using Nat.strongRecOn generalizing j n m with
  | ind i ih =>
    rw [term_of_node? hi, term_of_node? hj] at same
    have nodes : n = m := Node.mapChildren_inj (Term.ofNode_injective same) fun c hc d hd eq => by
      obtain ⟨p, hp⟩ := exists_child hi hc
      obtain ⟨q, hq⟩ := exists_child hj hd
      exact ih c (A.lt_of_mem_children hi hc) hp hq eq
    exact A.node?_inj hi (nodes ▸ hj)

end Arena

end GeneCalculus
