import Mathlib.Logic.Function.Iterate
import GeneCalculus.Arena.Unfolding
import GeneCalculus.Surface.Parse

/-!
Expressions with named variables. An S-expression abbreviates one, and one is translated to a tree
by putting, for each bound name, the number of binders between the name and its own.
-/

namespace GeneCalculus

theorem ok_of_toOption {α β : Type} {x : Except α β} {b : β} (given : x.toOption = some b) :
    x = .ok b := by
  cases x with
  | error _ => cases given
  | ok _ => exact congrArg Except.ok (Option.some.inj given)

namespace Term

/-- The tree of a node without children. -/
def ofLeaf (n : Node NodeId) : Term := .ofNode (n.mapChildren fun _ => .var 0)

/-- The first tree applied to the others, one after the other. -/
def spine? : List Term → Option Term
  | f :: x :: more => some ((x :: more).foldl .app f)
  | _ => none

end Term

namespace Surface

/-- An expression with named variables. A word that no binder binds has a meaning of its own. -/
inductive Named
  | word (w : String)
  | text (s : String)
  | lam (x : String) (body : Named)
  | node (form : Form) (parts : List Named)

/-- The tree of a form and the trees of its parts, if their number is right. -/
def Form.term? (form : Form) (parts : List Term) : Option Term := (form.node? parts).map .ofNode

namespace Form

theorem other_of_ofName? {k : String} {form : Form} (named : ofName? k = some form) :
    ¬lambdaWords.contains k = true ∧ k ≠ "app" ∧ k ≠ "let" := by
  have all : ∀ form ∈ all, ¬lambdaWords.contains form.name = true ∧ form.name ≠ "app" ∧
      form.name ≠ "let" := by decide
  have name := List.find?_some named
  simp only [beq_iff_eq] at name
  exact name ▸ all form (List.mem_of_find?_eq_some named)

end Form

theorem isReserved_eq_false_iff {k : String} : isReserved k = false ↔
    ¬lambdaWords.contains k = true ∧ k ≠ "app" ∧ k ≠ "let" ∧ Form.ofName? k = none := by
  simp [isReserved, and_assoc]

namespace Named

abbrev app (f x : Named) : Named := .node (.binary .app) [f, x]

/-- The first expression applied to the others, one after the other. -/
def spine? : List Named → Option Named
  | f :: x :: more => some ((x :: more).foldl .app f)
  | _ => none

mutual

/-- The tree of an expression under the names in scope, innermost first. A number of binders is a
word of 32 bits. -/
def term? (scope : List String) : Named → Option Term
  | .word w =>
    match scope.idxOf? w with
    | some k => some (.var (UInt32.ofNat k).toNat)
    | none => (unbound scope.length w).toOption.map .ofLeaf
  | .text s => some (.const (.str s))
  | .lam x body => (body.term? (x :: scope)).map .lam
  | .node form parts => (terms? scope parts).bind form.term?

/-- The trees of several expressions. -/
def terms? (scope : List String) : List Named → Option (List Term)
  | [] => some []
  | e :: es => (e.term? scope).bind fun t => (terms? scope es).map (t :: ·)

end

end Named

mutual

/-- The expression with named variables that an S-expression abbreviates. -/
def Sexp.named? : Sexp → Option Named
  | .text s => some (.text s)
  | .word w => some (.word w)
  | .list [] => none
  | .list (.word k :: args) =>
    if lambdaWords.contains k then
      match args with
      | [binders, body] =>
        (binderNames binders).toOption.bind fun names => body.named?.map fun b => names.foldr .lam b
      | _ => none
    else if k = "app" then (Sexp.namedAll? args).bind Named.spine?
    else if k = "let" then
      match args with
      | [.word x, value, body] =>
        value.named?.bind fun v => body.named?.map fun b => .app (.lam x b) v
      | _ => none
    else
      match Form.ofName? k with
      | some form => (Sexp.namedAll? args).map (.node form)
      | none => (Sexp.namedAll? args).bind fun es => Named.spine? (.word k :: es)
  | .list (head :: args) =>
    head.named?.bind fun e => (Sexp.namedAll? args).bind fun es => Named.spine? (e :: es)

/-- The expressions that several S-expressions abbreviate. -/
def Sexp.namedAll? : List Sexp → Option (List Named)
  | [] => some []
  | item :: items => item.named?.bind fun e => (Sexp.namedAll? items).map (e :: ·)

end

namespace Named

variable {scope : List String}

theorem term?_foldr_lam (names : List String) (body : Named) (scope : List String) :
    (names.foldr .lam body).term? scope =
      (body.term? (names.reverse ++ scope)).map (Term.lam^[names.length]) := by
  induction names generalizing scope with
  | nil => exact Option.map_id'.symm
  | cons x names ih =>
    rw [List.foldr_cons, term?, ih, Option.map_map, List.reverse_cons, List.append_assoc,
      List.length_cons, List.singleton_append]
    congr 1
    funext t
    exact (Function.iterate_succ_apply' Term.lam names.length t).symm

theorem term?_app (f x : Named) : (app f x).term? scope =
    (f.term? scope).bind fun t => (x.term? scope).map fun u => .app t u := by
  simp only [term?, terms?]
  cases f.term? scope with
  | none => rfl
  | some t =>
    cases x.term? scope with
    | none => rfl
    | some u => rfl

theorem term?_foldl_app (f : Named) (args : List Named) : (args.foldl .app f).term? scope =
    (f.term? scope).bind fun t => (terms? scope args).map fun ts => ts.foldl .app t := by
  induction args generalizing f with
  | nil => cases h : f.term? scope <;> simp [terms?, h]
  | cons x args ih =>
    rw [List.foldl_cons, ih, term?_app, terms?]
    cases f.term? scope with
    | none => rfl
    | some t =>
      cases x.term? scope with
      | none => rfl
      | some u =>
        cases terms? scope args with
        | none => rfl
        | some ts => rfl

theorem term?_spine (es : List Named) :
    (spine? es).bind (term? scope) = (terms? scope es).bind Term.spine? := by
  match es with
  | [] => rfl
  | [f] => cases h : f.term? scope <;> simp [spine?, terms?, h, Term.spine?]
  | f :: x :: more =>
    refine (term?_foldl_app f (x :: more)).trans ?_
    simp only [terms?]
    cases f.term? scope with
    | none => rfl
    | some t =>
      cases x.term? scope with
      | none => rfl
      | some u => cases terms? scope more <;> rfl

end Named

namespace Sexp

variable {scope : List String} {k x : String} {form : Form} {head e : Sexp}
  {args items : List Sexp}

/-- What holds of words and texts, and of a list as soon as it holds of its members, holds of all
S-expressions. -/
theorem member_induction {motive : Sexp → Prop} (word : ∀ w, motive (word w))
    (text : ∀ s, motive (text s))
    (list : ∀ items, (∀ item ∈ items, motive item) → motive (list items)) (e : Sexp) :
    motive e := by
  induction e using Sexp.rec (motive_2 := fun items => ∀ item ∈ items, motive item) with
  | word w => exact word w
  | text s => exact text s
  | list items ih => exact list items ih
  | nil => rename_i mem; cases mem
  | cons item items first rest => exact List.forall_mem_cons.2 ⟨first, rest⟩ _ ‹_›

/-- Whether the S-expression is a word that begins a form. -/
def isReserved : Sexp → Bool
  | word k => Surface.isReserved k
  | _ => false

theorem named?_lambda (lambda : lambdaWords.contains k = true) (binders body : Sexp) :
    (list [word k, binders, body]).named? = (binderNames binders).toOption.bind fun names =>
      body.named?.map fun b => names.foldr .lam b := by
  conv =>
    lhs
    unfold named?
  exact if_pos lambda

theorem named?_app (args : List Sexp) :
    (list (word "app" :: args)).named? = (namedAll? args).bind Named.spine? := by
  conv =>
    lhs
    unfold named?
  rw [if_neg (by decide), if_pos rfl]

theorem named?_let (x : String) (value body : Sexp) :
    (list [word "let", word x, value, body]).named? =
      value.named?.bind fun v => body.named?.map fun b => .app (.lam x b) v := by
  conv =>
    lhs
    unfold named?
  rw [if_neg (by decide), if_neg (by decide), if_pos rfl]

theorem named?_form (named : Form.ofName? k = some form) (args : List Sexp) :
    (list (word k :: args)).named? = (namedAll? args).map (.node form) := by
  obtain ⟨lambda, app, let_⟩ := Form.other_of_ofName? named
  conv =>
    lhs
    unfold named?
  rw [if_neg lambda, if_neg app, if_neg let_, named]

theorem named?_apply (free : head.isReserved = false) (args : List Sexp) :
    (list (head :: args)).named? = (namedAll? (head :: args)).bind Named.spine? := by
  rw [namedAll?]
  have spine : (list (head :: args)).named? =
      head.named?.bind fun e => (namedAll? args).bind fun es => Named.spine? (e :: es) := by
    cases head with
    | word k =>
      obtain ⟨lambda, app, let_, unnamed⟩ := isReserved_eq_false_iff.1 free
      conv =>
        lhs
        unfold named?
      rw [if_neg lambda, if_neg app, if_neg let_, unnamed]
      rfl
    | text s => rfl
    | list items => rfl
  rw [spine]
  cases head.named? with
  | none => rfl
  | some e => cases namedAll? args <;> rfl

/-- The tree of an S-expression under the names in scope. -/
def term? (scope : List String) (e : Sexp) : Option Term := e.named?.bind (Named.term? scope)

def terms? (scope : List String) (items : List Sexp) : Option (List Term) :=
  (namedAll? items).bind (Named.terms? scope)

theorem terms?_cons : terms? scope (e :: items) =
    (e.term? scope).bind fun t => (terms? scope items).map (t :: ·) := by
  unfold terms? term?
  rw [namedAll?]
  cases e.named? with
  | none => rfl
  | some n =>
    cases namedAll? items with
    | none => cases h : n.term? scope <;> simp [h]
    | some ns => rfl

theorem length_of_terms? {ts : List Term} (parts : terms? scope items = some ts) :
    ts.length = items.length := by
  induction items generalizing ts with
  | nil =>
    cases parts
    rfl
  | cons item items ih =>
    rw [terms?_cons] at parts
    obtain ⟨t, -, rest⟩ := Option.bind_eq_some_iff.1 parts
    obtain ⟨ts, inner, rfl⟩ := Option.map_eq_some_iff.1 rest
    rw [List.length_cons, List.length_cons, ih inner]

theorem bind_spine (es : Option (List Named)) :
    (es.bind Named.spine?).bind (Named.term? scope) =
      (es.bind (Named.terms? scope)).bind Term.spine? := by
  cases es with
  | none => rfl
  | some es => exact Named.term?_spine es

theorem term?_of_found {w : String} {i : Nat} (found : scope.idxOf? w = some i) :
    (word w).term? scope = some (.var (UInt32.ofNat i).toNat) := by
  show Named.term? scope (.word w) = _
  rw [Named.term?, found]

theorem term?_of_absent {w : String} (absent : scope.idxOf? w = none) :
    (word w).term? scope = (unbound scope.length w).toOption.map .ofLeaf := by
  show Named.term? scope (.word w) = _
  rw [Named.term?, absent]

theorem term?_lambda (lambda : lambdaWords.contains k = true) (binders body : Sexp) :
    (list [word k, binders, body]).term? scope = (binderNames binders).toOption.bind fun names =>
      (body.term? (names.reverse ++ scope)).map (Term.lam^[names.length]) := by
  unfold term?
  rw [named?_lambda lambda]
  cases (binderNames binders).toOption with
  | none => rfl
  | some names =>
    cases body.named? with
    | none => rfl
    | some b => exact Named.term?_foldr_lam names b scope

theorem term?_app (args : List Sexp) :
    (list (word "app" :: args)).term? scope = (terms? scope args).bind Term.spine? := by
  rw [term?, named?_app]
  exact bind_spine (namedAll? args)

theorem term?_let (x : String) (value body : Sexp) :
    (list [word "let", word x, value, body]).term? scope =
      (value.term? scope).bind fun v => (body.term? (x :: scope)).map fun b =>
        .app (.lam b) v := by
  unfold term?
  rw [named?_let]
  cases value.named? with
  | none => rfl
  | some v =>
    cases body.named? with
    | none => cases h : v.term? scope <;> simp [h]
    | some b =>
      have inner : (Named.lam x b).term? scope = (b.term? (x :: scope)).map .lam := by
        rw [Named.term?]
      refine (Named.term?_app (.lam x b) v).trans ?_
      rw [inner, Option.bind_some, Option.bind_some]
      cases v.term? scope <;> cases b.term? (x :: scope) <;> rfl

theorem term?_form (named : Form.ofName? k = some form) (args : List Sexp) :
    (list (word k :: args)).term? scope = (terms? scope args).bind form.term? := by
  unfold term? terms?
  rw [named?_form named]
  cases namedAll? args with
  | none => rfl
  | some es => rfl

theorem term?_apply (free : head.isReserved = false) (args : List Sexp) :
    (list (head :: args)).term? scope = (terms? scope (head :: args)).bind Term.spine? := by
  rw [term?, named?_apply free]
  exact bind_spine (namedAll? (head :: args))

end Sexp

end Surface

end GeneCalculus
