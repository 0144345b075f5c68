import Mathlib.Data.List.Forall2
import Mathlib.Data.Option.Defs
import GeneCalculus.Proofs.Sharing.Holding
import GeneCalculus.Proofs.Surface.Faults

/-!
Building the node of an S-expression is the translation of the expression that it abbreviates. The
name that is built stands for the tree of the translation, and an S-expression that has none is
refused; either way all that was in the arena stays.
-/

namespace GeneCalculus.Surface

variable {α β γ δ : Type} {A B : Arena} {scope : List String}

/-- What a run on an arena comes to, told what it is to make: it makes that, or it fails if there is
nothing to be made. -/
inductive Outcome (A : Arena) (R : Arena → α → β → Prop) :
    Option β → Except SyntaxError α × Arena → Prop
  | made {a : α} {b : β} {B : Arena} : A ≤ B → R B a b → Outcome A R (some b) (.ok a, B)
  | failed {fault : SyntaxError} {B : Arena} : A ≤ B → Outcome A R none (.error fault, B)

variable {R : Arena → α → β → Prop} {S : Arena → γ → δ → Prop}

theorem Outcome.bind {x : Build α} {k : α → Build γ} {told : Option β} {f : β → Option δ}
    (first : Outcome A R told (x A))
    (next : ∀ a b B, A ≤ B → R B a b → Outcome B S (f b) (k a B)) :
    Outcome A S (told.bind f) ((x >>= k) A) := by
  rw [build_bind]
  generalize x A = out at first
  cases first with
  | @made a b B keep related =>
    have later := next a b B keep related
    show Outcome A S (f b) (k a B)
    generalize k a B = out at later
    generalize f b = told at later
    cases later with
    | made keep' related' => exact .made (Arena.le_trans keep keep') related'
    | failed keep' => exact .failed (Arena.le_trans keep keep')
  | failed keep => exact .failed keep

theorem Outcome.make {n : Node NodeId} {t : Term} (shown : A.Shows n t) :
    Outcome A Arena.Holds (some t) (make n A) :=
  .made (A.le_intern n) shown.intern

/-- The nodes of a form whose parts are known are those of the tree of the form. -/
theorem Form.shows {is : List NodeId} {ts : List Term} (parts : List.Forall₂ A.Holds is ts)
    (form : Form) : Option.Rel A.Shows (form.node? is) (form.term? ts) := by
  cases form with
  | neg =>
    rcases parts with _ | ⟨x, _ | _⟩
    · exact .none
    · exact .some (.neg x)
    · exact .none
  | binary form =>
    rcases parts with _ | ⟨x, _ | ⟨y, _ | _⟩⟩
    · exact .none
    · exact .none
    · exact .some (.binary form x y)
    · exact .none
  | ternary form =>
    rcases parts with _ | ⟨x, _ | ⟨y, _ | ⟨z, _ | _⟩⟩⟩
    · exact .none
    · exact .none
    · exact .none
    · exact .some (.ternary form x y z)
    · exact .none
  | focus =>
    rcases parts with _ | ⟨x, _ | ⟨y, _ | ⟨z, _ | ⟨w, _ | _⟩⟩⟩⟩
    · exact .none
    · exact .none
    · exact .none
    · exact .none
    · exact .some (.focus x y z w)
    · exact .none

theorem Form.length_of_node? {form : Form} {l : List α} {n : Node α}
    (node : form.node? l = some n) :
    l.length = form.arity := by
  unfold Form.node? at node
  split at node <;> first | rfl | cases node

theorem Form.length_of_term? {form : Form} {ts : List Term} {t : Term}
    (node : form.term? ts = some t) : ts.length = form.arity := by
  obtain ⟨n, found, -⟩ := Option.map_eq_some_iff.1 node
  exact length_of_node? found

theorem bindAll_outcome (n : Nat) {i : NodeId} {t : Term} (h : A.Holds i t) :
    Outcome A Arena.Holds (some (Term.lam^[n] t)) (bindAll n i A) := by
  induction n generalizing A i t with
  | zero => exact .made A.le_refl h
  | succ n ih => exact (Outcome.make (.lam h)).bind fun j u B _ hj => ih hj

theorem children_unbound {depth : Nat} {w : String} {n : Node NodeId}
    (found : unbound depth w = .ok n) : n.children = [] := by
  unfold unbound at found
  split at found
  · cases found
    rfl
  · dsimp only at found
    split at found
    · split at found
      · cases found
        rfl
      · cases found
    · cases found
      split <;> rfl

theorem shows_ofLeaf {n : Node NodeId} (leaf : n.children = []) : A.Shows n (Term.ofLeaf n) := by
  cases n with
  | var k => exact .var k
  | atom a => exact .atom a
  | lam | neg | binary | ternary | focus => cases leaf

theorem word_outcome (A : Arena) (scope : List String) (w : String) :
    Outcome A Arena.Holds ((Sexp.word w).term? scope)
      ((do make (← settle (wordNode scope w)) : Build NodeId) A) := by
  unfold wordNode
  cases place : scope.idxOf? w with
  | some k =>
    rw [Sexp.term?_of_found place]
    exact .make (.var _)
  | none =>
    rw [Sexp.term?_of_absent place]
    cases found : unbound scope.length w with
    | ok n => exact .make (shows_ofLeaf (children_unbound found))
    | error fault => exact .failed A.le_refl

/-- Building the node of the S-expression is its translation. -/
def Builds (e : Sexp) : Prop := ∀ (scope : List String) (A : Arena),
  Outcome A Arena.Holds (e.term? scope) (lower scope e A)

/-- The names of the parts stand for the trees of the parts. -/
abbrev HoldsAll (A : Arena) (is : List NodeId) (ts : List Term) : Prop := List.Forall₂ A.Holds is ts

section Parts

variable {items : List Sexp} (built : ∀ item ∈ items, Builds item)

include built

theorem lowerAll_outcome (A : Arena) (scope : List String) :
    Outcome A HoldsAll (Sexp.terms? scope items) (lowerAll scope items A) := by
  induction items generalizing A with
  | nil => exact .made A.le_refl .nil
  | cons item items ih =>
    rw [Sexp.terms?_cons, lowerAll]
    refine (built item (.head _) scope A).bind fun i t B _ hi => ?_
    rw [Option.map_eq_bind]
    refine (ih (fun item mem => built item (.tail _ mem)) B).bind fun is ts C keep his => ?_
    exact .made C.le_refl (.cons (hi.mono keep) his)

theorem lowerSpine_outcome (scope : List String) {i : NodeId} {t : Term} (h : A.Holds i t) :
    Outcome A Arena.Holds ((Sexp.terms? scope items).map fun ts => ts.foldl .app t)
      (lowerSpine scope i items A) := by
  induction items generalizing A i t with
  | nil => exact .made A.le_refl h
  | cons item items ih =>
    have inner := fun item mem => built item (.tail _ mem)
    rw [Sexp.terms?_cons, lowerSpine, Option.map_bind]
    refine (built item (.head _) scope A).bind fun j u B keep hj => ?_
    have head : Outcome B Arena.Holds (some (Term.app t u)) (make (.app i j) B) :=
      .make (.binary .app (h.mono keep) hj)
    show Outcome B Arena.Holds (((Sexp.terms? scope items).map (u :: ·)).map _) _
    rw [Option.map_map]
    exact head.bind fun k v C _ hk => ih inner hk

end Parts

theorem spine_outcome {f x : Sexp} {more : List Sexp}
    (built : ∀ item ∈ f :: x :: more, Builds item) (scope : List String) (A : Arena) :
    Outcome A Arena.Holds ((Sexp.terms? scope (f :: x :: more)).bind Term.spine?)
      ((lower scope f >>= fun f => lowerSpine scope f (x :: more)) A) := by
  have spine : (Sexp.terms? scope (f :: x :: more)).bind Term.spine? = (f.term? scope).bind
      fun t => (Sexp.terms? scope (x :: more)).map fun ts => ts.foldl .app t := by
    simp only [Sexp.terms?_cons]
    cases f.term? scope with
    | none => rfl
    | some t =>
      cases x.term? scope with
      | none => rfl
      | some u => cases Sexp.terms? scope more <;> rfl
  rw [spine]
  refine (built f (.head _) scope A).bind fun i t B _ hi => ?_
  exact lowerSpine_outcome (fun item mem => built item (.tail _ mem)) scope hi

theorem lower_alone {head : Sexp} (free : head.isReserved = false) :
    lower scope (.list [head]) A = (.error .noArguments, A) := by
  cases head with
  | word k =>
    obtain ⟨lambda, app, let_, unnamed⟩ := isReserved_eq_false_iff.1 free
    unfold lower
    rw [if_neg lambda, if_neg app, if_neg let_, unnamed]
    rfl
  | text s => rfl
  | list items => rfl

theorem lower_apply {head : Sexp} (free : head.isReserved = false) (x : Sexp) (more : List Sexp) :
    lower scope (.list (head :: x :: more)) =
      lower scope head >>= fun f => lowerSpine scope f (x :: more) := by
  cases head with
  | word k =>
    obtain ⟨lambda, app, let_, unnamed⟩ := isReserved_eq_false_iff.1 free
    conv =>
      lhs
      unfold lower
    rw [if_neg lambda, if_neg app, if_neg let_, unnamed, lower, bind_assoc]
    rfl
  | text s => rfl
  | list items => rfl

section Cases

variable {k : String} {args : List Sexp} (built : ∀ arg ∈ args, Builds arg)

include built

theorem lambda_outcome (lambda : lambdaWords.contains k = true) (scope : List String) (A : Arena) :
    Outcome A Arena.Holds ((Sexp.list (.word k :: args)).term? scope)
      (lower scope (.list (.word k :: args)) A) := by
  have binding (binders body : Sexp) (inner : Builds body) :
      Outcome A Arena.Holds ((Sexp.list [.word k, binders, body]).term? scope)
        (lower scope (.list [.word k, binders, body]) A) := by
    rw [Sexp.term?_lambda lambda, lower, if_pos lambda]
    cases binderNames binders with
    | error fault => exact .failed A.le_refl
    | ok names =>
      show Outcome A Arena.Holds (Option.map _ _) _
      rw [Option.map_eq_bind]
      exact (inner (names.reverse ++ scope) A).bind fun i t B _ hi => bindAll_outcome _ hi
  rcases args with _ | ⟨binders, _ | ⟨body, _ | ⟨extra, more⟩⟩⟩
  case cons.cons.nil => exact binding binders body (built body (by simp))
  all_goals
    unfold Sexp.term? Sexp.named? lower
    rw [if_pos lambda, if_pos lambda]
    exact .failed A.le_refl

theorem app_outcome (scope : List String) (A : Arena) :
    Outcome A Arena.Holds ((Sexp.list (.word "app" :: args)).term? scope)
      (lower scope (.list (.word "app" :: args)) A) := by
  rw [Sexp.term?_app]
  unfold lower
  rw [if_neg (by decide), if_pos rfl]
  rcases args with _ | ⟨f, _ | ⟨x, more⟩⟩
  · exact .failed A.le_refl
  · rw [Sexp.terms?_cons]
    cases f.term? scope <;> exact .failed A.le_refl
  · exact spine_outcome built scope A

theorem let_outcome (scope : List String) (A : Arena) :
    Outcome A Arena.Holds ((Sexp.list (.word "let" :: args)).term? scope)
      (lower scope (.list (.word "let" :: args)) A) := by
  have binding (x : String) (value body : Sexp) (same : args = [.word x, value, body]) :
      Outcome A Arena.Holds ((Sexp.list [.word "let", .word x, value, body]).term? scope)
        (lower scope (.list [.word "let", .word x, value, body]) A) := by
    subst same
    rw [Sexp.term?_let]
    unfold lower
    rw [if_neg (by decide), if_neg (by decide), if_pos rfl]
    refine (built value (by simp) scope A).bind fun i v B _ hi => ?_
    rw [Option.map_eq_bind]
    refine (built body (by simp) (x :: scope) B).bind fun j b C keep hj => ?_
    have binder : Outcome C Arena.Holds (some b.lam) (make (.lam j) C) := .make (.lam hj)
    exact binder.bind fun l t D keep' hl =>
      .make (.binary .app hl (hi.mono (Arena.le_trans keep keep')))
  rcases args with _ | ⟨_ | _ | _, _ | ⟨value, _ | ⟨body, _ | ⟨extra, more⟩⟩⟩⟩
  case cons.word.cons.cons.nil x => exact binding x value body rfl
  all_goals
    unfold Sexp.term? Sexp.named? lower
    rw [if_neg (by decide), if_neg (by decide), if_pos rfl, if_neg (by decide),
      if_neg (by decide), if_pos rfl]
    exact .failed A.le_refl

theorem form_outcome {form : Form} (named : Form.ofName? k = some form) (scope : List String)
    (A : Arena) : Outcome A Arena.Holds ((Sexp.list (.word k :: args)).term? scope)
      (lower scope (.list (.word k :: args)) A) := by
  obtain ⟨lambda, app, let_⟩ := Form.other_of_ofName? named
  rw [Sexp.term?_form named]
  unfold lower
  rw [if_neg lambda, if_neg app, if_neg let_, named]
  by_cases number : args.length = form.arity
  · dsimp only
    rw [if_pos number]
    refine (lowerAll_outcome built A scope).bind fun is ts B _ his => ?_
    have shown := form.shows his
    generalize form.node? is = n at shown ⊢
    generalize form.term? ts = t at shown ⊢
    cases shown with
    | some shown => exact .make shown
    | none => exact .failed B.le_refl
  · dsimp only
    rw [if_neg number]
    cases eq : (Sexp.terms? scope args).bind form.term? with
    | none => exact .failed A.le_refl
    | some t =>
      obtain ⟨ts, parts, node⟩ := Option.bind_eq_some_iff.1 eq
      exact absurd ((Sexp.length_of_terms? parts).symm.trans (Form.length_of_term? node)) number

end Cases

/-- Building the node of an S-expression is its translation. -/
theorem builds (e : Sexp) : Builds e := by
  induction e using Sexp.member_induction with
  | text s => exact fun _ _ => .make (.atom (.const (.str s)))
  | word w => exact fun scope A => word_outcome A scope w
  | list items ih =>
    intro scope A
    cases items with
    | nil => exact .failed A.le_refl
    | cons head args =>
      have built := fun arg mem => ih arg (List.mem_cons_of_mem head mem)
      by_cases free : head.isReserved = false
      · rw [Sexp.term?_apply free]
        cases args with
        | nil =>
          rw [lower_alone free, Sexp.terms?_cons]
          cases head.term? scope <;> exact .failed A.le_refl
        | cons x more =>
          rw [lower_apply free]
          exact spine_outcome ih scope A
      · cases head with
        | word k =>
          by_cases lambda : lambdaWords.contains k = true
          · exact lambda_outcome built lambda scope A
          · by_cases app : k = "app"
            · subst app
              exact app_outcome built scope A
            · by_cases let_ : k = "let"
              · subst let_
                exact let_outcome built scope A
              · cases named : Form.ofName? k with
                | some form => exact form_outcome built named scope A
                | none => exact absurd (isReserved_eq_false_iff.2 ⟨lambda, app, let_, named⟩) free
        | text | list => exact absurd rfl free

/-- The tree that a source is translated to. -/
def translation? (source : String) : Option Term :=
  (Sexp.ofString source).toOption.bind (Sexp.term? [])

theorem translation?_of_ofString {source : String} {e : Sexp}
    (read : Sexp.ofString source = .ok e) :
    translation? source = e.term? [] := by
  rw [translation?, read]
  rfl

theorem parse_outcome (source : String) (A : Arena) :
    Outcome A Arena.Holds (translation? source) (parse source A) := by
  unfold translation? parse
  cases Sexp.ofString source with
  | error fault => exact .failed A.le_refl
  | ok e => exact builds e [] A

theorem parse_of_translation? {source : String} {t : Term} (told : translation? source = some t)
    (A : Arena) : ∃ i B, parse source A = (.ok i, B) ∧ A ≤ B ∧ B.Holds i t := by
  have outcome := parse_outcome source A
  rw [told] at outcome
  generalize parse source A = out at outcome
  cases outcome with
  | made keep made => exact ⟨_, _, rfl, keep, made⟩

theorem translation?_of_parse {source : String} {i : NodeId} (read : parse source A = (.ok i, B)) :
    A ≤ B ∧ ∃ t, translation? source = some t ∧ B.Holds i t := by
  have outcome := parse_outcome source A
  rw [read] at outcome
  generalize translation? source = told at outcome
  cases outcome with
  | made keep made => exact ⟨keep, _, rfl, made⟩

end GeneCalculus.Surface
