import GeneCalculus.Proofs.Calculus.Step

/-!
Runs by the steps of the calculus. Whatever they lack and whatever they remember, what they leave is
a reduct. A run that may lack steps is one of them if the whole evaluation is: up to the first step
that is lacking it does what the whole evaluation does, and afterwards it contracts nothing more.
-/

namespace GeneCalculus

namespace Term

variable {t u h r : Term}

theorem WeakHead.reduces {s s' : Fuel} (run : t.WeakHead Steps s u s') : t.Steps u := by
  induction run with
  | stay => exact .refl
  | step head _ _ made _ ih₁ ih₂ => exact ((steps_withHead head ih₁).trans made).trans ih₂
  | starved _ _ _ made | stuck _ _ _ made => exact made

theorem Headed.steps (run : t.Headed Steps h) : t.Steps h := by
  induction run with
  | stay => exact .refl
  | step head _ _ made _ ih₁ ih₂ => exact ((steps_withHead head ih₁).trans made).trans ih₂
  | stuck _ _ _ made => exact made

theorem Evaluates.steps (run : t.Evaluates Steps r) : t.Steps r := by
  induction run with
  | build head _ made ih =>
    exact (head.steps.trans (ih.mono fun _ _ ⟨_, steps⟩ => steps).steps).trans made

end Term

/-- What is remembered for a tree is a reduct of it. -/
def Course.Reduces (s : Course) : Prop := ∀ t r, s.done t = some r → t.Steps r

theorem Course.Reduces.finish {s : Course} {t r : Term} (memory : s.Reduces) (steps : t.Steps r) :
    (s.finish t r).Reduces :=
  s.finish_memory memory steps

namespace Term

variable {Q : Term → Term → Prop} {t u v r : Term}

theorem NormalForm.reduces {s s' : Course} (run : t.NormalForm Steps s r s') (memory : s.Reduces) :
    t.Steps r ∧ s'.Reduces := by
  induction run with
  | known found => exact ⟨memory _ _ found, memory⟩
  | @build t h h' s s' fuel fresh head parts made ih =>
    have inner : h.Traverse (fun a _ b _ => a.Steps b) ⟨fuel, s.done⟩ h' s' ∧ s'.Reduces :=
      (Traverse.map (f := id) (S := fun a _ b _ => a.Steps b) (I := Course.Reduces)
        (J := fun _ => True) (ih.mono fun a c b c' ⟨_, step⟩ _ => ⟨trivial, step⟩) trivial).2 memory
    obtain ⟨alike, memory'⟩ := inner
    have whole := (head.reduces.trans alike.alike.steps).trans made
    exact ⟨whole, memory'.finish whole⟩

theorem WeakHead.starved_eq {s s' : Fuel} (run : t.WeakHead Q s u s') (none : s.left = 0) :
    u = t ∧ s'.left = 0 ∧ t.WeakHead Steps s u s' := by
  induction run with
  | stay head => exact ⟨rfl, none, .stay head⟩
  | step head _ _ _ _ ih => cases (ih none).2.1
  | starved head _ next _ ih =>
    obtain ⟨same, -, run⟩ := ih none
    exact ⟨same ▸ withHead_self head, rfl, .starved head run next (steps_withHead head run.reduces)⟩
  | stuck head _ next _ ih =>
    obtain ⟨same, none, run⟩ := ih none
    exact ⟨same ▸ withHead_self head, none, .stuck head run next (steps_withHead head run.reduces)⟩

/-- Reduction at the head goes the way of the whole evaluation, and to its end if steps are left. -/
theorem WeakHead.of_headed {s s' : Fuel} (run : t.WeakHead Q s u s') (whole : t.Headed Steps v) :
    t.WeakHead Steps s u s' ∧ (s'.left = 0 ∨ u = v) := by
  induction run generalizing v with
  | stay none =>
    cases whole with
    | stay => exact ⟨.stay none, .inr rfl⟩
    | step some | stuck some => cases none.symm.trans some
  | step head _ next _ _ ih₁ ih₂ =>
    cases whole with
    | stay none => cases none.symm.trans head
    | step head' inner next' made rest =>
      cases head.symm.trans head'
      obtain ⟨run, zero | rfl⟩ := ih₁ inner
      · cases zero
      · cases next.symm.trans next'
        obtain ⟨run', done⟩ := ih₂ rest
        exact ⟨.step head run next made run', done⟩
    | stuck head' inner next' =>
      cases head.symm.trans head'
      obtain ⟨-, zero | rfl⟩ := ih₁ inner
      · cases zero
      · cases next.symm.trans next'
  | starved head _ next _ ih =>
    cases whole with
    | stay none => cases none.symm.trans head
    | step head' inner | stuck head' inner =>
      cases head.symm.trans head'
      have run := (ih inner).1
      exact ⟨.starved head run next (steps_withHead head run.reduces), .inl rfl⟩
  | stuck head _ next _ ih =>
    cases whole with
    | stay none => cases none.symm.trans head
    | step head' inner next' =>
      cases head.symm.trans head'
      obtain ⟨run, zero | rfl⟩ := ih inner
      · exact ⟨.stuck head run next (steps_withHead head run.reduces), .inl zero⟩
      · cases next.symm.trans next'
    | stuck head' inner =>
      cases head.symm.trans head'
      obtain ⟨run, zero | rfl⟩ := ih inner
      · exact ⟨.stuck head run next (steps_withHead head run.reduces), .inl zero⟩
      · exact ⟨.stuck head run next (steps_withHead head run.reduces), .inr rfl⟩

/-- A run goes by the steps of the calculus if the whole evaluation does or no step is left. -/
theorem NormalForm.of_evaluates {s s' : Course} (run : t.NormalForm Q s r s')
    (whole : s.fuel.left = 0 ∨ ∃ n, t.Evaluates Steps n) :
    t.NormalForm Steps s r s' ∧ (s.fuel.left = 0 → s'.fuel.left = 0) := by
  induction run with
  | known found => exact ⟨.known found, id⟩
  | @build t h h' s s' fuel fresh head parts made ih =>
    have first : t.WeakHead Steps s.fuel h fuel ∧ (s.fuel.left = 0 → fuel.left = 0) ∧
        (fuel.left = 0 ∨ ∀ c ∈ h.children, ∃ n, c.Evaluates Steps n) := by
      rcases whole with none | ⟨n, whole⟩
      · obtain ⟨rfl, none', run⟩ := head.starved_eq none
        exact ⟨run, fun _ => none', .inl none'⟩
      · cases whole with
        | build headed parts' =>
          obtain ⟨run, done⟩ := head.of_headed headed
          refine ⟨run, fun none => (head.starved_eq none).2.1, done.imp id fun same => ?_⟩
          rw [same]
          exact parts'.left
    obtain ⟨head', starved, rest⟩ := first
    have inner : h.Traverse (NormalForm Steps) ⟨fuel, s.done⟩ h' s' ∧
        (fuel.left = 0 → s'.fuel.left = 0) := by
      refine (Traverse.map (f := id) (S := NormalForm Steps)
        (I := fun c => fuel.left = 0 → c.fuel.left = 0) (J := fun _ => True)
        (ih.mem.mono fun a c b c' ⟨mem, _, step⟩ _ => ⟨trivial, fun empty => ?_⟩) trivial).2 id
      obtain ⟨run, empty'⟩ := step (rest.imp empty fun some => some a mem)
      exact ⟨run, fun zero => empty' (empty zero)⟩
    obtain ⟨parts', starved'⟩ := inner
    refine ⟨.build fresh head' parts' (steps_collapse h'), fun none => ?_⟩
    rw [Course.finish_fuel]
    exact starved' (starved none)

end Term

end GeneCalculus
