import GeneCalculus.Reduction.Redex

/-!
Normal-order reduction within a budget of steps. The head of a node is reduced first, then its
children from left to right; `(lam x x)` becomes the identity. A run that lacks steps stops with
what it has reached. Each result carries why the recursion ends: work on a node either spends a step
or leaves the node as it was.
-/

namespace GeneCalculus

/-- A reduction under way: the arena, the steps left, and whether a redex was met with none left. -/
structure Run where
  arena : Arena
  left : Nat
  exhausted : Bool

namespace Run

/-- Makes a node in the arena of the run. -/
def build (r : Run) (make : Arena → NodeId × Arena) (left : Nat) (exhausted : Bool) :
    NodeId × Run :=
  match r with
  | ⟨A, _, _⟩ =>
    let (j, A) := make A
    (j, ⟨A, left, exhausted⟩)

/-- Every node stayed, and a step was spent or the result is the start. -/
structure Progress (r : Run) (i : NodeId) (out : NodeId × Run) : Prop where
  kept : r.arena ≤ out.2.arena
  spent : out.2.left < r.left ∨ out.2.left = r.left ∧ out.1 = i

theorem Progress.le {r : Run} {i : NodeId} {out : NodeId × Run} (p : Progress r i out) :
    out.2.left ≤ r.left := by
  rcases p.spent with h | h <;> omega

theorem Progress.refl (r : Run) (i : NodeId) : Progress r i (i, r) :=
  ⟨r.arena.le_refl, .inr ⟨rfl, rfl⟩⟩

/-- Below the result there is either less budget or a smaller name. -/
theorem Progress.descends {r s : Run} {i j c left : Nat} (p : Progress r i (j, s)) (child : c < j)
    (le : left ≤ s.left) : Prod.Lex (· < ·) (· < ·) (left, c) (r.left, i) := by
  rcases p.spent with less | ⟨same, rfl⟩
  · exact .left _ _ (Nat.lt_of_le_of_lt le less)
  · rcases Nat.lt_or_eq_of_le le with less | equal
    · exact .left _ _ (same ▸ less)
    · exact (equal.trans same) ▸ .right _ child

/-- A step and a further reduction of what it made. -/
theorem Progress.step {r s t : Run} {i c d j : NodeId} {out : NodeId × Run}
    (p : Progress r c (d, s)) (kept : s.arena ≤ t.arena) (less : t.left < s.left)
    (q : Progress t j out) : Progress r i out :=
  ⟨Arena.le_trans p.kept (Arena.le_trans kept q.kept),
    .inl (by have := p.le; have := q.le; simp only at *; omega)⟩

/-- A node is built again around its reduced head. -/
theorem Progress.rebuild {r s : Run} {i c d : NodeId} {n : Node NodeId} {exhausted : Bool}
    (node : r.arena.node? i = some n) (head : n.head? = some c) (p : Progress r c (d, s)) :
    Progress r i (s.build (·.intern (n.withHead d)) s.left exhausted) := by
  refine ⟨Arena.le_trans p.kept (s.arena.le_intern _), ?_⟩
  rcases p.spent with less | ⟨same, rfl⟩
  · exact .inl less
  · refine .inr ⟨same, ?_⟩
    simp only [build, Node.withHead_self head, Arena.intern_of_node? (p.kept i n node)]

/-- Reduces the node at `i` until its head decides nothing more. -/
def weakHead (i : NodeId) (r : Run) : { out : NodeId × Run // Progress r i out } :=
  match node : r.arena.node? i with
  | none => ⟨(i, r), .refl r i⟩
  | some n =>
    match head : n.head? with
    | none => ⟨(i, r), .refl r i⟩
    | some c =>
      have : c < i := r.arena.lt_of_mem_children node (Node.head_mem head)
      match weakHead c r with
      | ⟨(d, s), p⟩ =>
        match s.arena.redex? (n.withHead d), spare : s.left with
        | some redex, left + 1 =>
          match next : s.build (·.contract redex) left s.exhausted with
          | (j, t) =>
            have kept : s.arena ≤ t.arena := by cases next; exact s.arena.le_contract redex
            have left_eq : t.left = left := by cases next; rfl
            have : t.left < r.left := by have := p.le; simp only at this; omega
            ⟨(weakHead j t).1, p.step kept (by omega) (weakHead j t).2⟩
        | some _, 0 => ⟨s.build (·.intern (n.withHead d)) s.left true, .rebuild node head p⟩
        | none, _ => ⟨s.build (·.intern (n.withHead d)) s.left s.exhausted, .rebuild node head p⟩
  termination_by (r.left, i)

end Run

/-- A normalization under way: the run and the normal forms of nodes that are done. -/
structure Normalizing where
  run : Run
  done : Std.HashMap NodeId NodeId

namespace Normalizing

/-- Builds the node at `i` again from its normal children. `(lam x x)` is the identity. A node is
done unless steps were lacking. -/
def finish (s : Normalizing) (i : NodeId) (n : Node NodeId) : NodeId × Normalizing :=
  match s with
  | ⟨⟨A, left, exhausted⟩, done⟩ =>
    let identity : Bool := match n with
      | .lam body => A.node? body == some (.var 0)
      | _ => false
    let (j, A) := A.intern (if identity then .ident else n)
    (j, ⟨⟨A, left, exhausted⟩, if exhausted then done else done.insert i j⟩)

/-- Reduces the head of the node at `i` and then its children from left to right. -/
def normalForm (i : NodeId) (s : Normalizing) :
    { out : NodeId × Normalizing // out.2.run.left ≤ s.run.left } :=
  match s.done[i]? with
  | some j => ⟨(j, s), Nat.le_refl _⟩
  | none =>
    match s with
    | ⟨r, done⟩ =>
      match r.weakHead i with
      | ⟨(h, r'), p⟩ =>
        match node : r'.arena.node? h with
        | none => ⟨(h, ⟨r', done⟩), p.le⟩
        | some n =>
          let children := n.traverse (σ := { t : Normalizing // t.run.left ≤ r'.left })
            ⟨⟨r', done⟩, Nat.le_refl _⟩ fun c hc ⟨t, le⟩ =>
              have : Prod.Lex (· < ·) (· < ·) (t.run.left, c) (r.left, i) :=
                p.descends (r'.arena.lt_of_mem_children node hc) le
              match normalForm c t with
              | ⟨(c', t'), le'⟩ => (c', ⟨t', Nat.le_trans le' le⟩)
          match children with
          | (n', ⟨t, le⟩) => ⟨t.finish i n', Nat.le_trans le p.le⟩
  termination_by (s.run.left, i)
  decreasing_by assumption

end Normalizing

/-- What a normalization came to. -/
structure Normalized where
  result : NodeId
  stepsUsed : Nat
  exhausted : Bool
  deriving DecidableEq

/-- Normalizes the expression at `root` with at most `maxSteps` reductions. -/
def Arena.normalize (A : Arena) (root : NodeId) (maxSteps : Nat) : Normalized × Arena :=
  match Normalizing.normalForm root ⟨⟨A, maxSteps, false⟩, ∅⟩ with
  | ⟨(j, ⟨⟨A, left, exhausted⟩, _⟩), _⟩ => (⟨j, maxSteps - left, exhausted⟩, A)

end GeneCalculus
