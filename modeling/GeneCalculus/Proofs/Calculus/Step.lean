import GeneCalculus.Proofs.Calculus.Substitution
import GeneCalculus.Proofs.Reduction.Normality
import GeneCalculus.Proofs.Term.Occurrence
import Mathlib.Logic.Relation
import Mathlib.Order.MinMax

/-!
The reduction steps of the calculus: a contraction at any place of a tree, under binders and in
branches too. Normal trees allow no step, and no step lets a variable point further out.
-/

namespace GeneCalculus.Term

open Relation

/-- Contraction of a redex at the root. -/
inductive Contracts : Term → Term → Prop
  | beta (body x : Term) : Contracts (app (lam body) x) (body.fill x)
  | ident (x : Term) : Contracts (app ident x) x
  | compose (f g x : Term) : Contracts (app (compose f g) x) (app f (app g x))
  | choose (b : Bool) (yes no : Term) : Contracts (choose (bool b) yes no) (if b then yes else no)
  | neg (b : Bool) : Contracts (neg (bool b)) (bool !b)
  | identity : Contracts (lam (var 0)) ident

/-- One contraction somewhere. -/
abbrev Step : Term → Term → Prop := Within Contracts

/-- Any number of contractions, in any order. -/
abbrev Steps : Term → Term → Prop := ReflTransGen Step

variable {t u v n c d : Term} {σ : Nat → Term}

theorem Steps.lam {a a' : Term} (h : a.Steps a') : (lam a).Steps (lam a') :=
  h.lift Term.lam fun _ _ => .lam

theorem Steps.neg {a a' : Term} (h : a.Steps a') : (neg a).Steps (neg a') :=
  h.lift Term.neg fun _ _ => .neg

theorem Steps.binary (form : Binary) {a a' b b' : Term} (ha : a.Steps a') (hb : b.Steps b') :
    (binary form a b).Steps (binary form a' b') :=
  ReflTransGen.trans (ha.lift (Term.binary form · b) fun _ _ => .binary₁ form b)
    (hb.lift (Term.binary form a') fun _ _ => .binary₂ form a')

theorem Steps.ternary (form : Ternary) {a a' b b' c c' : Term} (ha : a.Steps a') (hb : b.Steps b')
    (hc : c.Steps c') : (ternary form a b c).Steps (ternary form a' b' c') := by
  have first : (Term.ternary form a b c).Steps (.ternary form a' b c) :=
    ha.lift (Term.ternary form · b c) fun _ _ => .ternary₁ form b c
  have second : (Term.ternary form a' b c).Steps (.ternary form a' b' c) :=
    hb.lift (Term.ternary form a' · c) fun _ _ => .ternary₂ form a' c
  have third : (Term.ternary form a' b' c).Steps (.ternary form a' b' c') :=
    hc.lift (Term.ternary form a' b') fun _ _ => .ternary₃ form a' b'
  exact (first.trans second).trans third

theorem Steps.focus {a a' b b' c c' d d' : Term} (ha : a.Steps a') (hb : b.Steps b')
    (hc : c.Steps c') (hd : d.Steps d') : (focus a b c d).Steps (focus a' b' c' d') := by
  have first : (Term.focus a b c d).Steps (.focus a' b c d) :=
    ha.lift (Term.focus · b c d) fun _ _ => .focus₁ b c d
  have second : (Term.focus a' b c d).Steps (.focus a' b' c d) :=
    hb.lift (Term.focus a' · c d) fun _ _ => .focus₂ a' c d
  have third : (Term.focus a' b' c d).Steps (.focus a' b' c' d) :=
    hc.lift (Term.focus a' b' · d) fun _ _ => .focus₃ a' b' d
  have fourth : (Term.focus a' b' c' d).Steps (.focus a' b' c' d') :=
    hd.lift (Term.focus a' b' c') fun _ _ => .focus₄ a' b' c'
  exact ((first.trans second).trans third).trans fourth

/-- The parts may be reduced one after the other. -/
theorem Alike.steps (h : Alike Steps t u) : t.Steps u := by
  cases h with
  | var | atom => exact .refl
  | lam a => exact a.lam
  | neg a => exact a.neg
  | binary form a b => exact .binary form a b
  | ternary form a b c => exact .ternary form a b c
  | focus a b c d => exact .focus a b c d

theorem Contracts.steps (h : Contracts t u) : t.Steps u := .single (.here h)

theorem steps_withHead (head : t.head? = some c) (h : c.Steps d) : t.Steps (t.withHead d) := by
  unfold head? at head
  split at head <;> cases head
  · exact .binary _ h .refl
  · exact .ternary _ h .refl .refl
  · exact h.neg

theorem steps_collapse (t : Term) : t.Steps t.collapse := by
  unfold collapse
  split
  · exact Contracts.identity.steps
  · exact .refl

/-- A contraction goes on under a substitution. -/
theorem Contracts.bind (h : Contracts t u) (σ : Nat → Term) : Contracts (t.bind σ) (u.bind σ) := by
  cases h with
  | beta body x => exact fill_bind σ body x ▸ .beta _ _
  | ident x => exact .ident _
  | compose f g x => exact .compose _ _ _
  | choose b yes no => cases b <;> exact .choose _ _ _
  | neg b => exact .neg b
  | identity => exact .identity

theorem Contracts.not_inert (h : Contracts t u) : ¬ t.Inert := by
  rintro ⟨none, same⟩
  cases h with
  | identity => cases same
  | _ => cases none

theorem contract?_isSome (h : t.contract?.isSome) : ∃ u, Contracts t u := by
  unfold contract? at h
  split at h
  · exact ⟨_, .beta _ _⟩
  · exact ⟨_, .ident _⟩
  · exact ⟨_, .compose _ _ _⟩
  · exact ⟨_, .choose _ _ _⟩
  · exact ⟨_, .neg _⟩
  · cases h

theorem inert_iff : t.Inert ↔ ∀ u, ¬ Contracts t u := by
  constructor
  · intro inert u contracted
    exact contracted.not_inert inert
  · intro none
    constructor
    · rw [← Option.not_isSome_iff_eq_none]
      intro some
      obtain ⟨u, contracted⟩ := contract?_isSome some
      exact none u contracted
    · unfold collapse
      split
      · exact (none _ .identity).elim
      · rfl

/-- A normal tree allows no step. -/
theorem Normal.not_step (normal : t.Normal) (h : t.Step u) : False := by
  induction h with
  | here contracted => exact contracted.not_inert normal.root
  | lam _ ih | neg _ ih => exact ih normal.2
  | binary₁ _ _ _ ih | ternary₁ _ _ _ _ ih | focus₁ _ _ _ _ ih => exact ih normal.2.1
  | binary₂ _ _ _ ih => exact ih normal.2.2
  | ternary₂ _ _ _ _ ih | focus₂ _ _ _ _ ih => exact ih normal.2.2.1
  | ternary₃ _ _ _ _ ih => exact ih normal.2.2.2
  | focus₃ _ _ _ _ ih => exact ih normal.2.2.2.1
  | focus₄ _ _ _ _ ih => exact ih normal.2.2.2.2

/-- The normal trees are those that allow no step. -/
theorem normal_iff : t.Normal ↔ ∀ u, ¬ t.Step u := by
  constructor
  · intro normal u step
    exact normal.not_step step
  · intro none
    induction t using child_induction with
    | step t ih =>
      refine .intro (inert_iff.2 fun u contracted => none u (.here contracted)) fun c mem => ?_
      refine ih c mem fun d step => ?_
      obtain ⟨u, step⟩ := step.of_mem_children mem
      exact none u step

theorem Normal.steps_eq (normal : t.Normal) (h : t.Steps u) : u = t := by
  rcases h.cases_head with rfl | ⟨v, step, -⟩
  · rfl
  · exact (normal.not_step step).elim

theorem level_rename_le {k : Nat} {f : Nat → Nat} (inside : ∀ l < t.level, f l < k) :
    (t.rename f).level ≤ k := by
  induction t generalizing k f with
  | var l => exact inside l (Nat.lt_succ_self l)
  | atom a => exact Nat.zero_le k
  | lam a iha =>
    refine Nat.sub_le_of_le_add (iha fun l less => ?_)
    cases l with
    | zero => exact Nat.succ_pos k
    | succ l => exact Nat.succ_lt_succ (inside l (Nat.lt_sub_of_add_lt less))
  | _ =>
    simp only [rename, level, max_le_iff, lt_max_iff, or_imp, forall_and] at inside ⊢
    simp_all only [implies_true, and_self]

theorem level_bind_le {k : Nat} (inside : ∀ l < t.level, (σ l).level ≤ k) : (t.bind σ).level ≤ k := by
  induction t generalizing k σ with
  | var l => exact inside l (Nat.lt_succ_self l)
  | atom a => exact Nat.zero_le k
  | lam a iha =>
    refine Nat.sub_le_of_le_add (iha fun l less => ?_)
    cases l with
    | zero => exact Nat.succ_le_succ (Nat.zero_le k)
    | succ l =>
      have bound := inside l (Nat.lt_sub_of_add_lt less)
      exact level_rename_le fun m less => Nat.succ_lt_succ (Nat.lt_of_lt_of_le less bound)
  | _ =>
    simp only [bind, level, max_le_iff, lt_max_iff, or_imp, forall_and] at inside ⊢
    simp_all only [implies_true, and_self]

theorem level_fill_le (b x : Term) : (b.fill x).level ≤ max (b.level - 1) x.level := by
  refine level_bind_le fun l less => ?_
  cases l with
  | zero => exact Nat.le_max_right _ _
  | succ l => exact Nat.le_trans (Nat.le_sub_one_of_lt less) (Nat.le_max_left _ _)

theorem Contracts.level_le (h : Contracts t u) : u.level ≤ t.level := by
  cases h with
  | beta body x => exact level_fill_le body x
  | ident x => exact Nat.le_max_right _ _
  | compose f g x => simp only [level]; omega
  | choose b yes no => cases b <;> simp only [level, Bool.false_eq_true, ↓reduceIte] <;> omega
  | neg b => exact Nat.zero_le _
  | identity => exact Nat.zero_le _

theorem Step.level_le (h : t.Step u) : u.level ≤ t.level := by
  induction h with
  | here contracted => exact contracted.level_le
  | _ => simp only [level]; omega

theorem Steps.closed (h : t.Steps u) (closed : t.Closed) : u.Closed := by
  induction h with
  | refl => exact closed
  | tail _ step ih => exact Nat.le_zero.1 (ih ▸ step.level_le)

end GeneCalculus.Term
