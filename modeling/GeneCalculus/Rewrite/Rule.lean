import GeneCalculus.Arena.Basic

/-!
Rewriting rules. A rule looks at one node and, where it matches, makes the node that could stand in
its place; whether it does is decided by cost. The table holds the rules in order of priority.
-/

namespace GeneCalculus

structure Rule where
  name : String
  pattern : String
  replacement : String
  /-- The change of cost that one application is expected to make. -/
  hint : Int
  build : Arena → NodeId → Option (NodeId × Arena)

namespace Rule

/-- An operation on two constants is its value, if it has one. -/
def foldConstants (A : Arena) (i : NodeId) : Option (NodeId × Arena) :=
  match A.node? i with
  | some (.arith op l r) =>
    match A.node? l, A.node? r with
    | some (.const a), some (.const b) => (op.eval a b).map fun v => A.intern (.const v)
    | _, _ => none
  | _ => none

/-- Mapping the identity changes nothing. -/
def dropIdentity (A : Arena) (i : NodeId) : Option (NodeId × Arena) :=
  match A.node? i with
  | some (.map f xs) =>
    match A.node? f with
    | some .ident => some (xs, A)
    | _ => none
  | _ => none

/-- Two maps in a row are one map of the composition. -/
def fuseMaps (A : Arena) (i : NodeId) : Option (NodeId × Arena) :=
  match A.node? i with
  | some (.map f inner) =>
    match A.node? inner with
    | some (.map g xs) =>
      let (h, A) := A.intern (.compose f g)
      some (A.intern (.map h xs))
    | _ => none
  | _ => none

/-- A map over a filter is one fused traversal. -/
def fuseFilter (A : Arena) (i : NodeId) : Option (NodeId × Arena) :=
  match A.node? i with
  | some (.map f inner) =>
    match A.node? inner with
    | some (.filter p xs) =>
      let (drop, A) := A.intern .ident
      some (A.intern (.focus xs p f drop))
    | _ => none
  | _ => none

/-- The rules in order of priority. -/
def table : List Rule := [
  { name := "const_fold"
    pattern := "BinOp(op, Const a, Const b)"
    replacement := "Const(eval(op, a, b))"
    hint := -2
    build := foldConstants },
  { name := "identity_elim"
    pattern := "Map(Id, xs)"
    replacement := "xs"
    hint := -4
    build := dropIdentity },
  { name := "map_fusion"
    pattern := "Map(f, Map(g, xs))"
    replacement := "Map(Compose(f, g), xs)"
    hint := -2
    build := fuseMaps },
  { name := "filter_map_to_focus"
    pattern := "Map(f, Filter(p, xs))"
    replacement := "Focus(xs, p, f, Id)"
    hint := -1
    build := fuseFilter }]

end Rule

end GeneCalculus
