import GeneCalculus.Proofs.Calculus.Step

/-!
Head reduction, the steps that normal order takes first. A head step contracts the tree, or makes a
head step in the part that decides what becomes of it; no other part is touched. There is at most one
head step from a tree, and it goes on under a substitution. The function that gives back its argument
is decided by no part, so that it becomes the identity is no head step.
-/

namespace GeneCalculus.Term

/-- The step that is due at the head of a tree. -/
inductive HeadStep : Term → Term → Prop
  | contract {t c u : Term} : t.head? = some c → Contracts t u → HeadStep t u
  | inner {t c d : Term} : t.head? = some c → HeadStep c d → HeadStep t (t.withHead d)

/-- Head steps, counted. -/
inductive HeadSteps : Term → Nat → Term → Prop
  | refl (t : Term) : HeadSteps t 0 t
  | head {n : Nat} {t u v : Term} : HeadStep t u → HeadSteps u n v → HeadSteps t (n + 1) v

/-- No head step is due. -/
def HeadNormal (t : Term) : Prop := ∀ u, ¬ t.HeadStep u

variable {t u v c d : Term} {m n : Nat} {σ : Nat → Term}

theorem withHead_withHead (t c d : Term) : (t.withHead c).withHead d = t.withHead d := by
  cases t with
  | binary form => cases form <;> rfl
  | ternary form => cases form <;> rfl
  | _ => rfl

theorem HeadNormal.of_head (none : t.head? = none) : t.HeadNormal := by
  intro u step
  cases step with
  | contract head | inner head => cases none.symm.trans head

/-- Where no step is due in the deciding part, only the tree itself may be a redex. -/
theorem HeadNormal.withHead (normal : d.HeadNormal) (head : t.head? = some c)
    (stuck : ∀ u, ¬ Contracts (t.withHead d) u) : (t.withHead d).HeadNormal := by
  intro u step
  cases step with
  | contract _ contracted => exact stuck u contracted
  | inner head' step =>
    cases (head?_withHead head d).symm.trans head'
    exact normal _ step

/-- What contracts is decided by a part that no step is due in. -/
theorem Contracts.head_eq_none (h : Contracts t u) (head : t.head? = some c) : c.head? = none := by
  cases h <;> cases head <;> rfl

theorem Contracts.unique (h : Contracts t u) (k : Contracts t v) : u = v := by
  cases h <;> cases k <;> rfl

theorem HeadStep.unique (h : t.HeadStep u) (k : t.HeadStep v) : u = v := by
  induction h generalizing v with
  | contract head contracted =>
    cases k with
    | contract _ contracted' => exact contracted.unique contracted'
    | inner head' step => exact (HeadNormal.of_head (contracted.head_eq_none head') _ step).elim
  | inner head step ih =>
    cases k with
    | contract head' contracted =>
      exact (HeadNormal.of_head (contracted.head_eq_none head) _ step).elim
    | inner head' step' =>
      cases head.symm.trans head'
      rw [ih step']

theorem head?_bind (head : t.head? = some c) (σ : Nat → Term) :
    (t.bind σ).head? = some (c.bind σ) := by
  unfold head? at head
  split at head <;> cases head <;> rfl

theorem withHead_bind (head : t.head? = some c) (d : Term) (σ : Nat → Term) :
    (t.withHead d).bind σ = (t.bind σ).withHead (d.bind σ) := by
  unfold head? at head
  split at head <;> cases head <;> rfl

theorem HeadStep.bind (h : t.HeadStep u) (σ : Nat → Term) : (t.bind σ).HeadStep (u.bind σ) := by
  induction h with
  | contract head contracted => exact .contract (head?_bind head σ) (contracted.bind σ)
  | inner head _ ih => exact withHead_bind head _ σ ▸ .inner (head?_bind head σ) ih

theorem HeadSteps.bind (h : t.HeadSteps n u) (σ : Nat → Term) :
    (t.bind σ).HeadSteps n (u.bind σ) := by
  induction h with
  | refl t => exact .refl _
  | head step _ ih => exact .head (step.bind σ) ih

theorem HeadSteps.trans (h : t.HeadSteps m u) (k : u.HeadSteps n v) : t.HeadSteps (m + n) v := by
  induction h with
  | refl => rwa [Nat.zero_add]
  | head step _ ih => exact Nat.succ_add _ n ▸ .head step (ih k)

/-- The deciding part is reduced in its place. -/
theorem HeadSteps.withHead (h : c.HeadSteps n d) (head : t.head? = some c) :
    t.HeadSteps n (t.withHead d) := by
  induction h generalizing t with
  | refl c =>
    rw [withHead_self head]
    exact .refl t
  | @head n c e d step rest ih =>
    have later := ih (head?_withHead head e)
    rw [withHead_withHead] at later
    exact .head (.inner head step) later

/-- A head step at the root, where the deciding part has come to `d`. -/
theorem HeadSteps.contract (head : t.head? = some c) (inner : c.HeadSteps n d)
    (contracted : Contracts (t.withHead d) u) : t.HeadSteps (n + 1) u :=
  (inner.withHead head).trans (.head (.contract (head?_withHead head d) contracted) (.refl u))

/-- Where head reduction ends, every run of it leads there. -/
theorem HeadSteps.ahead (h : t.HeadSteps n v) (normal : v.HeadNormal) (k : t.HeadSteps m u) :
    ∃ l, n = m + l ∧ u.HeadSteps l v := by
  induction k generalizing n with
  | refl t => exact ⟨n, (Nat.zero_add n).symm, h⟩
  | @head m t w u step _ ih =>
    cases h with
    | refl => exact (normal _ step).elim
    | @head n _ w' _ step' rest =>
      cases step.unique step'
      obtain ⟨l, rfl, later⟩ := ih rest
      exact ⟨l, by omega, later⟩

end GeneCalculus.Term
