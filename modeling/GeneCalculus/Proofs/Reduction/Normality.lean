import GeneCalculus.Proofs.Reduction.Evaluation

/-!
Normal forms. What an unexhausted run leaves is normal, and a normal tree is left as it is by every
run, at no expense.
-/

namespace GeneCalculus

namespace Term

variable {Q Q' : Term → Term → Prop} {t u h r c d : Term}

/-- The tree is no redex, and not the function that gives back its argument. -/
def Inert (t : Term) : Prop := t.contract? = none ∧ t.collapse = t

instance : DecidablePred Inert := fun t =>
  inferInstanceAs (Decidable (t.contract? = none ∧ t.collapse = t))

/-- All parts of the tree are inert. -/
abbrev Normal (t : Term) : Prop := t.Everywhere Inert

theorem head?_mem (head : t.head? = some c) : c ∈ t.children := by
  unfold head? at head
  split at head <;> cases head <;> simp [children]

theorem binders_of_head (head : t.head? = some c) : t.binders = 0 := by
  unfold head? at head
  split at head <;> cases head <;> rfl

theorem mem_children_withHead {e : Term} (head : t.head? = some c)
    (mem : e ∈ (t.withHead d).children) : e = d ∨ e ∈ t.children := by
  unfold head? at head
  split at head <;> cases head <;>
    simp only [withHead, children, List.mem_cons, List.not_mem_nil, or_false] at mem ⊢ <;> grind

theorem withHead_self (head : t.head? = some c) : t.withHead c = t := by
  unfold head? at head
  split at head <;> cases head <;> rfl

theorem head?_withHead (head : t.head? = some c) (d : Term) : (t.withHead d).head? = some d := by
  unfold head? at head
  split at head <;> cases head <;> rfl

theorem contract?_eq_none (head : t.head? = none) : t.contract? = none := by
  unfold contract?
  split <;> first | rfl | cases head

theorem Normal.weakHead (normal : t.Normal) (s : Fuel) : t.WeakHead Any s t s := by
  induction t using child_induction with
  | step t ih =>
    cases head : t.head? with
    | none => exact .stay head
    | some c =>
      have mem := head?_mem head
      have same := withHead_self head
      have run : t.WeakHead Any s (t.withHead c) s :=
        .stuck head (ih c mem (normal.child mem)) (same.symm ▸ normal.root.1) trivial
      rwa [same] at run

/-- A run over a normal tree leaves the tree and the budget. -/
theorem Normal.normalForm (normal : t.Normal) {s : Course} (fixed : ∀ u r, s.done u = some r → r = u) :
    ∃ s', t.NormalForm Any s t s' ∧ (∀ u r, s'.done u = some r → r = u) ∧ s'.fuel = s.fuel := by
  induction t using child_induction generalizing s with
  | step t ih =>
    cases known : s.done t with
    | some r =>
      cases fixed t r known
      exact ⟨s, .known known, fixed, rfl⟩
    | none =>
      obtain ⟨s', parts, fixed', same⟩ := exists_traverse (t := t) (s := s) (R := NormalForm Any)
        (I := fun s' => (∀ u r, s'.done u = some r → r = u) ∧ s'.fuel = s.fuel)
        (fun c mem s' ⟨fixed', same⟩ => by
          obtain ⟨s'', run, fixed'', same'⟩ := ih c mem (normal.child mem) fixed'
          exact ⟨s'', run, fixed'', same'.trans same⟩) ⟨fixed, rfl⟩
      have run := NormalForm.build known (normal.weakHead s.fuel) parts trivial
      rw [normal.root.2] at run
      exact ⟨_, run, s'.finish_memory (P := fun u r => r = u) fixed' rfl,
        (s'.finish_fuel t t).trans same⟩

/-- A normal tree is its own normal form, and it takes no step to find that out. -/
theorem Normal.start (normal : t.Normal) (maxSteps : Nat) :
    ∃ c, t.NormalForm Any (.start maxSteps) t c ∧ c.fuel = ⟨maxSteps, false⟩ := by
  obtain ⟨c, run, -, same⟩ := normal.normalForm (s := .start maxSteps) fun _ _ found => by cases found
  exact ⟨c, run, same⟩

theorem Headed.deterministic (h : t.Headed Q u) (k : t.Headed Q' r) : u = r := by
  induction h generalizing r with
  | stay none =>
    cases k with
    | stay => rfl
    | step some | stuck some => cases none.symm.trans some
  | step head _ next _ _ ih₁ ih₂ =>
    cases k with
    | stay none => cases none.symm.trans head
    | step head' run next' _ run' =>
      cases head.symm.trans head'
      cases ih₁ run
      cases next.symm.trans next'
      exact ih₂ run'
    | stuck head' run next' =>
      cases head.symm.trans head'
      cases ih₁ run
      cases next.symm.trans next'
  | stuck head _ next _ ih =>
    cases k with
    | stay none => cases none.symm.trans head
    | step head' run next' =>
      cases head.symm.trans head'
      cases ih run
      cases next.symm.trans next'
    | stuck head' run =>
      cases head.symm.trans head'
      rw [ih run]

theorem Alike.deterministic {R : Term → Term → Prop}
    (h : Alike (fun a b => ∀ b₂, R a b₂ → b = b₂) t u) (k : Alike R t r) : u = r := by
  cases h with
  | var | atom => cases k; rfl
  | lam a | neg a =>
    cases k with | _ a' => rw [a _ a']
  | binary form a b =>
    cases k with | binary _ a' b' => rw [a _ a', b _ b']
  | ternary form a b c =>
    cases k with | ternary _ a' b' c' => rw [a _ a', b _ b', c _ c']
  | focus a b c d =>
    cases k with | focus a' b' c' d' => rw [a _ a', b _ b', c _ c', d _ d']

theorem Evaluates.deterministic (h : t.Evaluates Q u) (k : t.Evaluates Q' r) : u = r := by
  induction h generalizing r with
  | build head _ _ parts =>
    cases k with
    | build head' parts' =>
      cases head.deterministic head'
      have only : Alike (fun a b => ∀ b₂, a.Evaluates Q' b₂ → b = b₂) _ _ :=
        parts.mono fun _ _ ⟨_, same⟩ _ other => same other
      rw [only.deterministic parts']

theorem NormalForm.evaluates_start {m : Nat} {c : Course} (h : t.NormalForm Q (.start m) r c)
    (enough : c.fuel.exhausted = false) : t.Evaluates Q r :=
  ((h.evaluates enough).2 fun _ _ found => by cases found).1

theorem Normal.evaluates (normal : t.Normal) : t.Evaluates Any t := by
  obtain ⟨c, run, fuel⟩ := normal.start 0
  exact run.evaluates_start (by rw [fuel])

/-- What is headed is decided by no part, or by one that is headed and makes it no redex. -/
theorem Headed.resolved (h : t.Headed Q u) :
    u.head? = none ∨ ∃ d, u.head? = some d ∧ d.Headed Any d ∧ u.contract? = none := by
  induction h with
  | stay none => exact .inl none
  | step _ _ _ _ _ _ ih => exact ih
  | @stuck t c d head run next _ ih =>
    refine .inr ⟨d, head?_withHead head d, ?_, next⟩
    rcases ih with none | ⟨e, head', run', inert⟩
    · exact .stay none
    · have same := withHead_self head'
      have again : d.Headed Any (d.withHead e) := .stuck head' run' (same.symm ▸ inert) trivial
      rwa [same] at again

theorem Headed.idem (h : t.Headed Q u) : u.Headed Any u := by
  rcases h.resolved with none | ⟨d, head, run, inert⟩
  · exact .stay none
  · have same := withHead_self head
    have again : u.Headed Any (u.withHead d) := .stuck head run (same.symm ▸ inert) trivial
    rwa [same] at again

/-- Only the parts of what is headed are still to be evaluated. -/
theorem Evaluates.of_headed (run : t.Evaluates Q r) (self : t.Headed Any t) :
    ∃ t', Alike (Evaluates Q) t t' ∧ r = t'.collapse := by
  cases run with
  | build head parts =>
    cases head.deterministic self
    exact ⟨_, parts, rfl⟩

theorem Alike.right {P : Term → Prop} (h : Alike (fun _ b => P b) t u) : ∀ c ∈ u.children, P c := by
  cases h <;> simp_all [children]

/-- The evaluation of the parts makes no redex of what is headed. -/
theorem Alike.inert (parts : Alike (Evaluates Q) h u) (self : h.Headed Any h) : u.contract? = none := by
  rcases self.resolved with none | ⟨d, head, run, inert⟩
  · refine contract?_eq_none ?_
    cases parts with
    | var | atom | lam | focus => rfl
    | neg => cases none
    | binary form => cases form <;> first | rfl | cases none
    | ternary form => cases form <;> first | rfl | cases none
  · cases parts with
    | var | atom | lam | focus => cases head
    | neg x =>
      cases head
      obtain ⟨d', parts, rfl⟩ := x.of_headed run
      cases parts with
      | lam => unfold Term.collapse; split <;> rfl
      | atom => exact inert
      | _ => rfl
    | binary form x y =>
      cases form with
      | app =>
        cases head
        obtain ⟨d', parts, rfl⟩ := x.of_headed run
        cases parts with
        | lam => cases inert
        | atom a =>
          cases a with
          | ident => cases inert
          | _ => rfl
        | binary form =>
          cases form with
          | compose => cases inert
          | _ => rfl
        | _ => rfl
      | _ => cases head
    | ternary form x y z =>
      cases form with
      | reduce => cases head
      | choose =>
        cases head
        obtain ⟨d', parts, rfl⟩ := x.of_headed run
        cases parts with
        | lam => unfold Term.collapse; split <;> rfl
        | atom a => rcases a with (_ | _ | _ | _) | _ | _ <;> first | rfl | cases inert
        | _ => rfl

/-- What an evaluation reaches is normal. -/
theorem Evaluates.normal (run : t.Evaluates Q r) : r.Normal := by
  induction run with
  | @build t h h' head parts _ ih =>
    have inner : ∀ c ∈ h'.children, c.Normal := (ih.mono fun _ _ step => step.2).right
    have inert := parts.inert head.idem
    by_cases same : h'.collapse = h'
    · rw [same]
      exact .intro ⟨inert, same⟩ inner
    · unfold Term.collapse at same ⊢
      split at same
      · exact .intro ⟨rfl, rfl⟩ fun c mem => by cases mem
      · exact absurd rfl same

end Term

end GeneCalculus
