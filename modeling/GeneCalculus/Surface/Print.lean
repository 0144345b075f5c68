import GeneCalculus.Surface.Form

/-!
The printed form of an expression. Binders are named by their depth from the outside, so a bound
variable is an `x` with the depth of its binder; a variable beyond all binders is a `#` with its
distance past them.
-/

namespace GeneCalculus.Surface

/-- A variable under `depth` binders. -/
def variableText (k depth : Nat) : String :=
  if k < depth then "x" ++ toString (depth - 1 - k) else "#" ++ toString (k - depth)

def atomText : Atom → String
  | .const v => v.text
  | .prim name => name
  | .ident => "id"

/-- The word that begins the written form of a node, for nodes with one. -/
def openingWord {α : Type} : Node α → String
  | .neg _ => Form.neg.name
  | .binary form _ _ => (Form.binary form).name
  | .ternary form _ _ _ => (Form.ternary form).name
  | .focus _ _ _ _ => Form.focus.name
  | _ => ""

end GeneCalculus.Surface

namespace GeneCalculus

namespace Arena

open Surface

/-- Whether the node is a primitive whose name would begin another form. -/
def isReservedHead (A : Arena) (i : NodeId) : Bool :=
  match A.node? i with
  | some (.prim name) => isReserved name
  | _ => false

/-- Writes the expression at `i`, found under `depth` binders, after `out`. An application shows no
word of its own unless its head is reserved. -/
def printOnto (A : Arena) (i : NodeId) (depth : Nat) (out : String) : String :=
  match h : A.node? i with
  | none => out
  | some (.var k) => out ++ variableText k.toNat depth
  | some (.atom a) => out ++ atomText a
  | some (.lam body) =>
    have : body < i := A.lt_of_mem_children h (by simp [Node.children])
    (A.printOnto body (depth + 1) (out ++ "(lam x" ++ toString depth ++ " ")).push ')'
  | some (.app f x) =>
    have : f < i := A.lt_of_mem_children h (by simp [Node.children])
    have : x < i := A.lt_of_mem_children h (by simp [Node.children])
    let out := A.printOnto f depth (out ++ if A.isReservedHead f then "(app " else "(")
    (A.printOnto x depth (out.push ' ')).push ')'
  | some n =>
    (n.children.attach.foldl (fun out ⟨c, hc⟩ =>
      have : c < i := A.lt_of_mem_children h hc
      A.printOnto c depth (out.push ' ')) (out ++ "(" ++ openingWord n)).push ')'
  termination_by i

/-- The printed form of the expression at `root`. -/
def print (A : Arena) (root : NodeId) : String := A.printOnto root 0 ""

end Arena

end GeneCalculus
