import GeneCalculus.Reduction.Substitution

/-!
Redexes. A node is decided at its head: the function of an application, the condition of a choice,
the operand of a negation. Once the head is known, a node either is a redex or stays.
-/

namespace GeneCalculus

namespace Node

variable {α : Type}

/-- The child that decides what becomes of the node. -/
def head? : Node α → Option α
  | .app f _ => some f
  | .choose cond _ _ => some cond
  | .neg x => some x
  | _ => none

/-- The node with another deciding child. -/
def withHead (n : Node α) (h : α) : Node α :=
  match n with
  | .app _ x => .app h x
  | .choose _ yes no => .choose h yes no
  | .neg _ => .neg h
  | n => n

theorem head_mem {n : Node α} {h : α} (eq : n.head? = some h) : h ∈ n.children := by
  unfold head? at eq
  split at eq <;> cases eq <;> simp [children]

theorem withHead_self {n : Node α} {h : α} (eq : n.head? = some h) : n.withHead h = n := by
  unfold head? at eq
  split at eq <;> cases eq <;> rfl

end Node

/-- A redex with what its contraction needs. -/
inductive Redex
  /-- `((lam body) arg)` becomes the body with the argument put in. -/
  | beta (body arg : NodeId)
  /-- `(id x)` becomes `x`. -/
  | ident (x : NodeId)
  /-- `((compose f g) x)` becomes `(f (g x))`. -/
  | compose (f g x : NodeId)
  /-- A choice on a truth value becomes its branch. -/
  | branch (taken : NodeId)
  /-- The negation of a truth value becomes the other one. -/
  | flip (value : Bool)

namespace Arena

/-- The redex at a node, if it is one. -/
def redex? (A : Arena) (n : Node NodeId) : Option Redex :=
  n.head?.bind fun h =>
    match n, A.node? h with
    | .app _ x, some (.lam body) => some (.beta body x)
    | .app _ x, some .ident => some (.ident x)
    | .app _ x, some (.compose f g) => some (.compose f g x)
    | .choose _ yes no, some (.const (.bool b)) => some (.branch (if b then yes else no))
    | .neg _, some (.const (.bool b)) => some (.flip b)
    | _, _ => none

/-- What a redex becomes. -/
def contract (A : Arena) : Redex → NodeId × Arena
  | .beta body arg => A.instantiate body arg
  | .ident x => (x, A)
  | .compose f g x =>
    let (y, A) := A.intern (.app g x)
    A.intern (.app f y)
  | .branch taken => (taken, A)
  | .flip value => A.intern (.const (.bool !value))

theorem le_contract (A : Arena) (r : Redex) : A ≤ (A.contract r).2 := by
  cases r with
  | beta body arg => exact A.le_instantiate body arg
  | ident | branch => exact A.le_refl
  | compose f g x => exact Arena.le_trans (A.le_intern _) (le_intern _ _)
  | flip => exact A.le_intern _

end Arena

end GeneCalculus
