import GeneCalculus.Arena.Basic

/-!
Checks on expressions that come from outside: that a list of nodes is an arena's, that a root is in
its arena, and that no variable points past all binders.
-/

namespace GeneCalculus

/-- What is wrong with the structure of an expression. -/
inductive Malformed
  | noNodes
  | rootOutside (root count : Nat)
  | childAfter (node child : Nat)
  | repeatedNode
  | freeVariable (index depth : Nat)
  deriving DecidableEq

def Malformed.message : Malformed → String
  | noNodes => "expression has no nodes"
  | rootOutside root count => s!"root %{root} is out of range for {count} nodes"
  | childAfter node child => s!"node {node} references child %{child} that does not precede it"
  | repeatedNode => "snapshot contains duplicate nodes"
  | freeVariable index depth => s!"free variable #{index} at binder depth {depth}"

/-- The first child, in written order, that does not stand before its parent. -/
def childrenPrecede (i : Nat) : List (Node NodeId) → Except Malformed Unit
  | [] => .ok ()
  | n :: rest =>
    match n.children.find? fun c => i ≤ c with
    | some c => .error (.childAfter i c)
    | none => childrenPrecede (i + 1) rest

/-- A list of nodes must not be empty, must hold the root, and must have children before parents. -/
def validateNodes (nodes : List (Node NodeId)) (root : NodeId) : Except Malformed Unit :=
  if nodes.isEmpty then .error .noNodes
  else if nodes.length ≤ root then .error (.rootOutside root nodes.length)
  else childrenPrecede 0 nodes

namespace Arena

/-- A root must be a name of the arena. -/
def validateRoot (A : Arena) (root : NodeId) : Except Malformed Unit :=
  if root < A.size then .ok () else .error (.rootOutside root A.size)

/-- The rightmost variable under `i` that points past `depth` binders, with what it names beyond
them and its own depth. -/
def freeVariable? (A : Arena) (i : NodeId) (depth : Nat) : Option (Nat × Nat) :=
  match h : A.node? i with
  | none => none
  | some (.var k) => if depth ≤ k.toNat then some (k.toNat - depth, depth) else none
  | some n =>
    n.children.reverse.attach.findSome? fun ⟨c, hc⟩ =>
      have : c < i := A.lt_of_mem_children h (List.mem_reverse.1 hc)
      A.freeVariable? c (depth + n.binders)
  termination_by i

/-- A closed expression has a root in the arena and no variable that points past all binders. -/
def validateClosed (A : Arena) (root : NodeId) : Except Malformed Unit := do
  A.validateRoot root
  match A.freeVariable? root 0 with
  | some (index, depth) => throw (.freeVariable index depth)
  | none => return ()

end Arena

end GeneCalculus
