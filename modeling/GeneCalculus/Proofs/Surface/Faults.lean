import GeneCalculus.Proofs.Surface.Named
import GeneCalculus.Surface.Parse

/-!
Why an S-expression is refused. Names of nodes are never looked at while nodes are built, so the
fault depends on the S-expression alone, and not on what the arena holds.
-/

namespace GeneCalculus.Surface

variable {α β γ δ : Type} {R : α → β → Prop} {S : γ → δ → Prop}

/-- Both results are related values, or both are one fault. -/
inductive Concur (R : α → β → Prop) : Except SyntaxError α → Except SyntaxError β → Prop
  | ok {a : α} {b : β} : R a b → Concur R (.ok a) (.ok b)
  | error (fault : SyntaxError) : Concur R (.error fault) (.error fault)

/-- The works concur, whatever the arenas are that they are done on. -/
def InStep (R : α → β → Prop) (x : Build α) (y : Build β) : Prop :=
  ∀ A B, Concur R (x A).1 (y B).1

/-- Any two names. -/
abbrev AnyNames (_ _ : NodeId) : Prop := True

theorem build_bind (x : Build α) (k : α → Build β) (A : Arena) :
    (x >>= k) A = match x A with
      | (.ok a, B) => k a B
      | (.error fault, B) => (.error fault, B) := by
  show (match x A with | (a, B) => ExceptT.bindCont k a B) = _
  rcases x A with ⟨_ | _, B⟩ <;> rfl

theorem inStep_throw (fault : SyntaxError) :
    InStep R (throw fault : Build α) (throw fault : Build β) := fun _ _ => .error fault

theorem inStep_settle (x : Except SyntaxError α) : InStep (· = ·) (settle x) (settle x) := by
  intro A B
  cases x with
  | ok a => exact .ok rfl
  | error fault => exact .error fault

theorem inStep_make (n m : Node NodeId) : InStep AnyNames (make n) (make m) :=
  fun _ _ => .ok trivial

theorem InStep.bind {x : Build α} {y : Build β} {k : α → Build γ} {l : β → Build δ}
    (first : InStep R x y) (next : ∀ a b, R a b → InStep S (k a) (l b)) :
    InStep S (x >>= k) (y >>= l) := by
  intro A B
  have here := first A B
  rw [build_bind, build_bind]
  generalize x A = out at here ⊢
  generalize y B = out' at here ⊢
  obtain ⟨r, A'⟩ := out
  obtain ⟨r', B'⟩ := out'
  cases here with
  | ok related => exact next _ _ related A' B'
  | error fault => exact .error fault

/-- Whether a form has a node depends on the number of its parts alone. -/
theorem Form.isSome_node? (form : Form) (parts : List α) :
    (form.node? parts).isSome = (form.node? (List.replicate parts.length ())).isSome := by
  rcases parts with _ | ⟨a, _ | ⟨b, _ | ⟨c, _ | ⟨d, _ | ⟨e, more⟩⟩⟩⟩⟩ <;> cases form <;> rfl

theorem inStep_bindAll (n : Nat) (i j : NodeId) : InStep AnyNames (bindAll n i) (bindAll n j) := by
  induction n generalizing i j with
  | zero => exact fun _ _ => .ok trivial
  | succ n ih => exact (inStep_make _ _).bind fun i j _ => ih i j

/-- Building the node of the S-expression comes to the same on any two arenas. -/
def Steady (e : Sexp) : Prop :=
  ∀ scope : List String, InStep AnyNames (lower scope e) (lower scope e)

variable {k : String} {items args : List Sexp}

section Parts

variable (steady : ∀ item ∈ items, Steady item) (scope : List String)

include steady

theorem inStep_lowerAll :
    InStep (·.length = ·.length) (lowerAll scope items) (lowerAll scope items) := by
  induction items with
  | nil => exact fun _ _ => .ok rfl
  | cons item items ih =>
    rw [lowerAll]
    refine (steady item (.head _) scope).bind fun i j _ => ?_
    refine (ih fun item mem => steady item (.tail _ mem)).bind fun is js number => ?_
    exact fun _ _ => .ok (congrArg Nat.succ number)

theorem inStep_lowerSpine (f g : NodeId) :
    InStep AnyNames (lowerSpine scope f items) (lowerSpine scope g items) := by
  induction items generalizing f g with
  | nil => exact fun _ _ => .ok trivial
  | cons item items ih =>
    rw [lowerSpine, lowerSpine]
    refine (steady item (.head _) scope).bind fun i j _ => ?_
    refine (inStep_make _ _).bind fun f g _ => ?_
    exact ih (fun item mem => steady item (.tail _ mem)) f g

end Parts

section Cases

variable (steady : ∀ arg ∈ args, Steady arg)

include steady

theorem steady_lambda (lambda : lambdaWords.contains k = true) :
    Steady (.list (.word k :: args)) := by
  intro scope
  unfold lower
  rw [if_pos lambda]
  split
  · next binders body =>
    refine (inStep_settle _).bind fun names _ same => ?_
    subst same
    exact (steady body (by simp) _).bind fun i j _ => inStep_bindAll _ i j
  · exact inStep_throw _

theorem steady_app : Steady (.list (.word "app" :: args)) := by
  intro scope
  unfold lower
  rw [if_neg (by decide), if_pos rfl]
  split
  · next f x more =>
    refine (steady f (.head _) scope).bind fun i j _ => ?_
    exact inStep_lowerSpine (fun arg mem => steady arg (.tail _ mem)) scope i j
  · exact inStep_throw _

theorem steady_let : Steady (.list (.word "let" :: args)) := by
  intro scope
  unfold lower
  rw [if_neg (by decide), if_neg (by decide), if_pos rfl]
  split
  · next name value body =>
    refine (steady value (by simp) scope).bind fun i j _ => ?_
    refine (steady body (by simp) _).bind fun b c _ => ?_
    exact (inStep_make _ _).bind fun f g _ => inStep_make _ _
  · exact inStep_throw _
  · exact inStep_throw _

theorem steady_form {form : Form} (named : Form.ofName? k = some form)
    (other : ¬lambdaWords.contains k = true ∧ k ≠ "app" ∧ k ≠ "let") :
    Steady (.list (.word k :: args)) := by
  intro scope
  unfold lower
  rw [if_neg other.1, if_neg other.2.1, if_neg other.2.2, named]
  dsimp only
  split
  · refine (inStep_lowerAll steady scope).bind fun is js number => ?_
    have both : (form.node? is).isSome = (form.node? js).isSome := by
      rw [form.isSome_node?, number, ← form.isSome_node?]
    cases here : form.node? is with
    | none =>
      rw [here, Option.isSome_none, eq_comm, Option.isSome_eq_false_iff, Option.isNone_iff_eq_none]
        at both
      rw [both, number]
      exact inStep_throw _
    | some n =>
      rw [here, Option.isSome_some, eq_comm, Option.isSome_iff_exists] at both
      obtain ⟨m, there⟩ := both
      rw [there]
      exact inStep_make n m
  · exact inStep_throw _

theorem steady_host (unbound : isReserved k = false) : Steady (.list (.word k :: args)) := by
  intro scope
  obtain ⟨lambda, app, let_, unnamed⟩ := isReserved_eq_false_iff.1 unbound
  unfold lower
  rw [if_neg lambda, if_neg app, if_neg let_, unnamed]
  dsimp only
  split
  · exact inStep_throw _
  · refine (inStep_settle _).bind fun n _ same => ?_
    subst same
    exact (inStep_make _ _).bind fun i j _ => inStep_lowerSpine steady scope i j

end Cases

/-- Building the node of an S-expression comes to the same on any two arenas. -/
theorem steady (e : Sexp) : Steady e := by
  induction e using Sexp.member_induction with
  | text s => exact fun _ => inStep_make _ _
  | word w =>
    intro scope
    rw [lower]
    refine (inStep_settle _).bind fun n _ same => ?_
    exact inStep_make _ _
  | list items ih =>
    cases items with
    | nil => exact fun _ => inStep_throw _
    | cons head args =>
      have inner := fun arg mem => ih arg (List.mem_cons_of_mem head mem)
      have apply (scope : List String) : InStep AnyNames
          (do
            if args.isEmpty then throw SyntaxError.noArguments
            lowerSpine scope (← lower scope head) args)
          (do
            if args.isEmpty then throw SyntaxError.noArguments
            lowerSpine scope (← lower scope head) args) := by
        split
        · exact inStep_throw _
        · exact (ih head (.head _) scope).bind fun i j _ => inStep_lowerSpine inner scope i j
      cases head with
      | word k =>
        by_cases free : isReserved k = false
        · exact steady_host inner free
        · by_cases lambda : lambdaWords.contains k = true
          · exact steady_lambda inner lambda
          · by_cases app : k = "app"
            · subst app
              exact steady_app inner
            · by_cases let_ : k = "let"
              · subst let_
                exact steady_let inner
              · cases named : Form.ofName? k with
                | some form => exact steady_form inner named ⟨lambda, app, let_⟩
                | none => exact absurd (isReserved_eq_false_iff.2 ⟨lambda, app, let_, named⟩) free
      | text s => exact apply
      | list items => exact apply

/-- Parsing a source comes to the same in any two arenas. -/
theorem parse_inStep (source : String) : InStep AnyNames (parse source) (parse source) := by
  refine (inStep_settle _).bind fun e _ same => ?_
  subst same
  exact steady e []

end GeneCalculus.Surface
