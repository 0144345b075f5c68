import Std.Data.HashSet
import GeneCalculus.Arena.Basic

/-!
The part of an arena under a root, and copies of it in other arenas.
-/

namespace GeneCalculus.Arena

/-- Walks down from the names below `bound`, collecting the wanted ones and wanting their children.
Children stand before their parents, so each is wanted before the walk comes to it. -/
def collect (A : Arena) : (bound : Nat) → Std.HashSet NodeId → List NodeId → List NodeId
  | 0, _, found => found
  | i + 1, wanted, found =>
    if i ∈ wanted then
      match A.node? i with
      | some n => A.collect i (n.children.foldl (·.insert ·) wanted) (i :: found)
      | none => A.collect i wanted found
    else A.collect i wanted found

/-- The names of the nodes under `root`, itself included, in ascending order. -/
def reachable (A : Arena) (root : NodeId) : List NodeId :=
  A.collect (root + 1) (Std.HashSet.emptyWithCapacity.insert root) []

/-- Interns copies of nodes of `B`, given children first, and remembers the name of each copy. -/
def adoptAll (B : Arena) :
    List NodeId → Std.HashMap NodeId NodeId → Arena → Std.HashMap NodeId NodeId × Arena
  | [], names, A => (names, A)
  | i :: rest, names, A =>
    match B.node? i with
    | some n =>
      let (j, A) := A.intern (n.mapChildren fun c => names.getD c 0)
      B.adoptAll rest (names.insert i j) A
    | none => B.adoptAll rest names A

/-- Copies the expression at `root` of `B` into `A`. -/
def adopt (A B : Arena) (root : NodeId) : NodeId × Arena :=
  let (names, A) := B.adoptAll (B.reachable root) ∅ A
  (names.getD root 0, A)

/-- An arena of nothing but the expression at `root`. -/
def extract (A : Arena) (root : NodeId) : NodeId × Arena := empty.adopt A root

end GeneCalculus.Arena
