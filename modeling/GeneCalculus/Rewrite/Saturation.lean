import GeneCalculus.Rewrite.Rule
import GeneCalculus.Rewrite.Tally

/-!
Rewriting to a fixpoint. A pass goes through an expression from the leaves up and puts, for each
node, the first replacement that is strictly cheaper; passes follow each other until one changes
nothing or the cap is reached.
-/

namespace GeneCalculus

/-- The first strictly cheaper replacement of node `i`, with the name of its rule, or `i` itself.
Replacements that are not cheaper stay in the arena unused. -/
def Rule.improve (i : NodeId) : List Rule → Arena → (NodeId × Option String) × Arena
  | [], A => ((i, none), A)
  | rule :: rules, A =>
    match rule.build A i with
    | none => improve i rules A
    | some (j, A) => if A.cost j < A.cost i then ((j, some rule.name), A) else improve i rules A

/-- A pass under way: the arena, the nodes that are done, and the applications of each rule. -/
structure Rewriting where
  arena : Arena
  done : Std.HashMap NodeId NodeId
  applied : Tally

/-- Builds a node from its rewritten children and puts its replacement, as the outcome for `i`. -/
def Rewriting.settle (rules : List Rule) (s : Rewriting) (i : NodeId) (n : Node NodeId) :
    NodeId × Rewriting :=
  match s with
  | ⟨A, done, applied⟩ =>
    let (j, A) := A.intern n
    match Rule.improve j rules A with
    | ((k, none), A) => (k, ⟨A, done.insert i k, applied⟩)
    | ((k, some name), A) => (k, ⟨A, done.insert i k, applied.add name 1⟩)

/-- Rewrites the expression at `i`, each distinct part once. -/
def Rewriting.pass (rules : List Rule) (i : NodeId) (s : Rewriting) : NodeId × Rewriting :=
  match s.done[i]? with
  | some j => (j, s)
  | none =>
    match h : s.arena.node? i with
    | none => (i, s)
    | some n =>
      let (m, t) := n.traverse s fun c hc t =>
        have : c < i := s.arena.lt_of_mem_children h hc
        pass rules c t
      t.settle rules i m
  termination_by i

/-- What rewriting came to. `fixpoint` says that the last pass changed nothing. -/
structure Rewritten where
  result : NodeId
  passes : Nat
  fixpoint : Bool
  applied : Tally
  deriving DecidableEq

/-- At most `cap` further passes. -/
def Rule.saturateFrom (rules : List Rule) :
    (cap : Nat) → (i : NodeId) → (passes : Nat) → Tally → Arena → Rewritten × Arena
  | 0, i, passes, applied, A => (⟨i, passes, false, applied⟩, A)
  | cap + 1, i, passes, applied, A =>
    match Rewriting.pass rules i ⟨A, ∅, applied⟩ with
    | (j, ⟨A, _, applied⟩) =>
      if j = i then (⟨i, passes + 1, true, applied⟩, A)
      else saturateFrom rules cap j (passes + 1) applied A

/-- Rewrites the expression at `root` with at most `maxPasses` passes. -/
def Arena.saturate (A : Arena) (rules : List Rule) (maxPasses : Nat) (root : NodeId) :
    Rewritten × Arena :=
  Rule.saturateFrom rules maxPasses root 0 .empty A

end GeneCalculus
