import GeneCalculus.Expr.Operator

/-!
One node of an expression, over any type of children. Forms that differ only in their name share a
constructor, so what treats all children alike is written once for each number of children.
-/

namespace GeneCalculus

/-- A leaf that is no variable: a constant, a named primitive of the host, or the identity. -/
inductive Atom
  | const (value : Literal)
  | prim (name : String)
  | ident
  deriving DecidableEq, Hashable, Inhabited

/-- A form with two parts. -/
inductive Binary
  | app | map | filter | compose
  | arith (op : Operator)
  deriving DecidableEq, Hashable, Inhabited

/-- A form with three parts. -/
inductive Ternary
  | reduce | choose
  deriving DecidableEq, Hashable, Inhabited

/-- A node whose children are of type `α`. Variables count the binders between themselves and their
own: `var 0` belongs to the nearest enclosing `lam`. -/
inductive Node (α : Type)
  | var (index : UInt32)
  | atom (a : Atom)
  | lam (body : α)
  | neg (x : α)
  | binary (form : Binary) (a b : α)
  | ternary (form : Ternary) (a b c : α)
  | focus (xs p f drop : α)
  deriving DecidableEq, Hashable, Inhabited

namespace Node

variable {α β σ : Type}

@[match_pattern] abbrev const (v : Literal) : Node α := .atom (.const v)
@[match_pattern] abbrev prim (name : String) : Node α := .atom (.prim name)
@[match_pattern] abbrev ident : Node α := .atom .ident
@[match_pattern] abbrev app (f x : α) : Node α := .binary .app f x
@[match_pattern] abbrev map (f xs : α) : Node α := .binary .map f xs
@[match_pattern] abbrev filter (p xs : α) : Node α := .binary .filter p xs
@[match_pattern] abbrev compose (f g : α) : Node α := .binary .compose f g
@[match_pattern] abbrev arith (op : Operator) (l r : α) : Node α := .binary (.arith op) l r
@[match_pattern] abbrev reduce (f init xs : α) : Node α := .ternary .reduce f init xs
@[match_pattern] abbrev choose (cond yes no : α) : Node α := .ternary .choose cond yes no

/-- The children in written order. -/
def children : Node α → List α
  | .var _ | .atom _ => []
  | .lam a | .neg a => [a]
  | .binary _ a b => [a, b]
  | .ternary _ a b c => [a, b, c]
  | .focus a b c d => [a, b, c, d]

/-- How many binders the node puts around its children. -/
def binders : Node α → Nat
  | .lam _ => 1
  | _ => 0

/-- Replaces the children in written order, passing a state from each to the next. -/
def traverse (n : Node α) (s : σ) (f : (c : α) → c ∈ n.children → σ → β × σ) : Node β × σ :=
  match n, f with
  | .var k, _ => (.var k, s)
  | .atom a, _ => (.atom a, s)
  | .lam a, f =>
    let (a, s) := f a (by simp [children]) s
    (.lam a, s)
  | .neg a, f =>
    let (a, s) := f a (by simp [children]) s
    (.neg a, s)
  | .binary form a b, f =>
    let (a, s) := f a (by simp [children]) s
    let (b, s) := f b (by simp [children]) s
    (.binary form a b, s)
  | .ternary form a b c, f =>
    let (a, s) := f a (by simp [children]) s
    let (b, s) := f b (by simp [children]) s
    let (c, s) := f c (by simp [children]) s
    (.ternary form a b c, s)
  | .focus a b c d, f =>
    let (a, s) := f a (by simp [children]) s
    let (b, s) := f b (by simp [children]) s
    let (c, s) := f c (by simp [children]) s
    let (d, s) := f d (by simp [children]) s
    (.focus a b c d, s)

/-- Replaces every child. -/
def mapChildren (n : Node α) (f : α → β) : Node β :=
  (n.traverse () fun c _ s => (f c, s)).1

theorem mapChildren_congr {n : Node α} {f g : α → β} (same : ∀ c ∈ n.children, f c = g c) :
    n.mapChildren f = n.mapChildren g := by
  cases n <;> simp only [children, List.mem_cons, List.not_mem_nil, or_false, forall_eq_or_imp,
    forall_eq] at same <;> simp only [mapChildren, traverse, same]

/-- Nodes that agree after a replacement of their children agreed before, if it keeps their children
apart. -/
theorem mapChildren_inj {n m : Node α} {f : α → β} (same : n.mapChildren f = m.mapChildren f)
    (inj : ∀ a ∈ n.children, ∀ b ∈ m.children, f a = f b → a = b) : n = m := by
  cases n <;> cases m <;> simp_all [mapChildren, traverse, children]

/-- A relation between states that each step keeps, the traversal keeps. -/
theorem traverse_rel {n : Node α} {f : (c : α) → c ∈ n.children → σ → β × σ} {R : σ → σ → Prop}
    (refl : ∀ s, R s s) (trans : ∀ {s t u}, R s t → R t u → R s u)
    (step : ∀ c h s, R s (f c h s).2) (s : σ) : R s (n.traverse s f).2 := by
  cases n with
  | var | atom => exact refl s
  | lam | neg => exact step ..
  | binary => exact trans (step ..) (step ..)
  | ternary => exact trans (trans (step ..) (step ..)) (step ..)
  | focus => exact trans (trans (trans (step ..) (step ..)) (step ..)) (step ..)

end Node

end GeneCalculus
