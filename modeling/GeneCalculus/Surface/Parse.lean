import GeneCalculus.Surface.Form
import GeneCalculus.Surface.Sexp

/-!
From S-expressions to nodes. Bound names become indices that count the binders in between, so texts
that differ only in bound names give the same node. Nodes that were made before an error stay in the
arena.
-/

namespace GeneCalculus.Surface

/-- Work on an arena that may fail and keeps what it made. -/
abbrev Build := ExceptT SyntaxError (StateM Arena)

/-- Interns a node. -/
def make (n : Node NodeId) : Build NodeId := fun A =>
  let (i, A) := A.intern n
  (.ok i, A)

/-- Work that leaves the arena as it is. -/
def settle {α : Type} (x : Except SyntaxError α) : Build α := fun A => (x, A)

/-- The node of a word that no binder in scope binds: an integer, a variable beyond all binders, a
named constant, or a primitive of the host. -/
def unbound (depth : Nat) (word : String) : Except SyntaxError (Node NodeId) :=
  match Text.Numeral.int64? word.toList with
  | some n => .ok (.const (.int n))
  | none =>
    let free := match word.toList with
      | '#' :: digits => Text.Numeral.uint32? 10 digits
      | _ => none
    match free with
    | some k =>
      if k.toNat + depth < UInt32.size then .ok (.var (UInt32.ofNat (k.toNat + depth)))
      else .error (.indexRange word)
    | none =>
      .ok (match word with
        | "true" => .const (.bool true)
        | "false" => .const (.bool false)
        | "nil" => .const .nil
        | "id" => .ident
        | name => .prim name)

/-- The node of a word under the names in scope, innermost first. -/
def wordNode (scope : List String) (word : String) : Except SyntaxError (Node NodeId) :=
  match scope.idxOf? word with
  | some k => .ok (.var (UInt32.ofNat k))
  | none => unbound scope.length word

/-- The names of a binder list. -/
def binderNames : Sexp → Except SyntaxError (List String)
  | .word name => .ok [name]
  | .list (item :: items) => (item :: items).mapM fun
    | .word name => .ok name
    | other => .error (.binder other)
  | other => .error (.binderList other)

/-- Puts `n` binders around a node. -/
def bindAll : Nat → NodeId → Build NodeId
  | 0, i => return i
  | n + 1, i => do bindAll n (← make (.lam i))

mutual

/-- The node of an S-expression under the names in scope, innermost first. -/
def lower (scope : List String) : Sexp → Build NodeId
  | .text s => make (.const (.str s))
  | .word w => do make (← settle (wordNode scope w))
  | .list [] => throw .emptyList
  | .list (.word k :: args) =>
    if lambdaWords.contains k then
      match args with
      | [binders, body] => do
        let names ← settle (binderNames binders)
        bindAll names.length (← lower (names.reverse ++ scope) body)
      | _ => throw (.arity "lam" 2 args.length)
    else if k = "app" then
      match args with
      | f :: x :: more => do
        let f ← lower scope f
        lowerSpine scope f (x :: more)
      | _ => throw .applicationArity
    else if k = "let" then
      match args with
      | [.word name, value, body] => do
        let value ← lower scope value
        let body ← lower (name :: scope) body
        make (.app (← make (.lam body)) value)
      | [binder, _, _] => throw (.letBinder binder)
      | _ => throw (.arity "let" 3 args.length)
    else
      match Form.ofName? k with
      | some form =>
        if args.length = form.arity then do
          let parts ← lowerAll scope args
          match form.node? parts with
          | some n => make n
          | none => throw (.arity k form.arity parts.length)
        else throw (.arity k form.arity args.length)
      | none => do
        if args.isEmpty then throw .noArguments
        lowerSpine scope (← make (← settle (wordNode scope k))) args
  | .list (head :: args) => do
    if args.isEmpty then throw .noArguments
    lowerSpine scope (← lower scope head) args

/-- Applies `f` to each argument in turn. -/
def lowerSpine (scope : List String) (f : NodeId) : List Sexp → Build NodeId
  | [] => return f
  | arg :: args => do
    let x ← lower scope arg
    lowerSpine scope (← make (.app f x)) args

/-- The nodes of several S-expressions, from left to right. -/
def lowerAll (scope : List String) : List Sexp → Build (List NodeId)
  | [] => return []
  | item :: items => do
    let i ← lower scope item
    return i :: (← lowerAll scope items)

end

/-- Reads the source of an expression into an arena. -/
def parse (source : String) : Build NodeId := do lower [] (← settle (Sexp.ofString source))

end GeneCalculus.Surface
