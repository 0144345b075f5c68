import GeneCalculus.Proofs.Reduction.Normalization

/-!
Runs that lack no step. Such a run takes the same steps whatever else its budget holds
(`NormalForm.rebase`), and what it computes is told by `Evaluates`, without a budget and without a
memory.
-/

namespace GeneCalculus

namespace Term

/-- Reduction of a tree until its head decides nothing more, with no budget. -/
inductive Headed (Q : Term → Term → Prop) : Term → Term → Prop
  | stay {t : Term} : t.head? = none → Headed Q t t
  | step {t c d u v : Term} : t.head? = some c → Headed Q c d → (t.withHead d).contract? = some u →
      Q (t.withHead d) u → Headed Q u v → Headed Q t v
  | stuck {t c d : Term} : t.head? = some c → Headed Q c d → (t.withHead d).contract? = none →
      Q t (t.withHead d) → Headed Q t (t.withHead d)

/-- Normalization with no budget and no memory. -/
inductive Evaluates (Q : Term → Term → Prop) : Term → Term → Prop
  | build {t h h' : Term} : Headed Q t h → Alike (Evaluates Q) h h' → Q h' h'.collapse →
      Evaluates Q t h'.collapse

variable {Q Q' : Term → Term → Prop}

@[elab_as_elim, induction_eliminator]
theorem Evaluates.induct {motive : ∀ {t r : Term}, t.Evaluates Q r → Prop}
    (build : ∀ {t h h' : Term} (head : t.Headed Q h) (parts : Alike (Evaluates Q) h h')
      (made : Q h' h'.collapse) (_ : Alike (fun a b => ∃ run : a.Evaluates Q b, motive run) h h'),
      motive (.build head parts made))
    {t r : Term} (run : t.Evaluates Q r) : motive run :=
  Evaluates.rec
    (motive_1 := fun _ _ run => motive run)
    (motive_2 := fun t u _ => Alike (fun a b => ∃ run : a.Evaluates Q b, motive run) t u)
    (fun head parts made ih => build head parts made ih)
    (fun k => .var k) (fun a => .atom a)
    (fun a iha => .lam ⟨a, iha⟩) (fun a iha => .neg ⟨a, iha⟩)
    (fun form _ _ _ _ a b iha ihb => .binary form ⟨a, iha⟩ ⟨b, ihb⟩)
    (fun form _ _ _ _ _ _ a b c iha ihb ihc => .ternary form ⟨a, iha⟩ ⟨b, ihb⟩ ⟨c, ihc⟩)
    (fun a b c d iha ihb ihc ihd => .focus ⟨a, iha⟩ ⟨b, ihb⟩ ⟨c, ihc⟩ ⟨d, ihd⟩) run

theorem Headed.mono {t u : Term} (sub : ∀ a b, Q a b → Q' a b) (h : t.Headed Q u) :
    t.Headed Q' u := by
  induction h with
  | stay none => exact .stay none
  | step head _ next made _ ih₁ ih₂ => exact .step head ih₁ next (sub _ _ made) ih₂
  | stuck head _ next made ih => exact .stuck head ih next (sub _ _ made)

theorem Evaluates.mono {t r : Term} (sub : ∀ a b, Q a b → Q' a b) (h : t.Evaluates Q r) :
    t.Evaluates Q' r := by
  induction h with
  | build head _ made ih =>
    exact .build (head.mono sub) (ih.mono fun _ _ step => step.2) (sub _ _ made)

end Term

/-- What is remembered is right. -/
def Course.Sound (Q : Term → Term → Prop) (s : Course) : Prop :=
  ∀ t r, s.done t = some r → t.Evaluates Q r

/-- No step was lacking, and at least `floor` of them are left. -/
structure Fuel.Spare (floor : Nat) (s : Fuel) : Prop where
  enough : s.exhausted = false
  floor_le : floor ≤ s.left

/-- The same budget counted from `base` instead of `floor`. -/
def Fuel.rebase (floor base : Nat) (s : Fuel) : Fuel := ⟨s.left - floor + base, s.exhausted⟩

def Course.rebase (floor base : Nat) (s : Course) : Course := ⟨s.fuel.rebase floor base, s.done⟩

theorem Course.finish_rebase (s : Course) (t r : Term) (floor base : Nat) :
    (s.finish t r).rebase floor base = (s.rebase floor base).finish t r := by
  rcases s with ⟨⟨left, exhausted⟩, done⟩
  cases exhausted <;> rfl

namespace Term

variable {Q Q' : Term → Term → Prop} {floor : Nat}

theorem WeakHead.rebase {t u : Term} {s s' : Fuel} (h : t.WeakHead Q s u s') (spare : s'.Spare floor)
    (base : Nat) :
    s.Spare floor ∧ t.WeakHead Q (s.rebase floor base) u (s'.rebase floor base) := by
  induction h with
  | stay none => exact ⟨spare, .stay none⟩
  | @step t c d u v s s' left exhausted head _ next made _ ih₁ ih₂ =>
    obtain ⟨⟨enough, le⟩, run₂⟩ := ih₂ spare
    have le' : floor ≤ left := le
    obtain ⟨spare', run₁⟩ := ih₁ ⟨enough, Nat.le_succ_of_le le'⟩
    refine ⟨spare', .step head ?_ next made run₂⟩
    have same : Fuel.rebase floor base ⟨left + 1, exhausted⟩ =
        ⟨left - floor + base + 1, exhausted⟩ := by
      simp only [Fuel.rebase, Fuel.mk.injEq, and_true]
      omega
    rwa [same] at run₁
  | starved => cases spare.enough
  | stuck head _ next made ih =>
    obtain ⟨spare', run⟩ := ih spare
    exact ⟨spare', .stuck head run next made⟩

/-- A run that lacks no step can be run from any budget that holds the steps it takes. -/
theorem NormalForm.rebase {t r : Term} {s s' : Course} (h : t.NormalForm Q s r s')
    (spare : s'.fuel.Spare floor) (base : Nat) :
    s.fuel.Spare floor ∧ t.NormalForm Q (s.rebase floor base) r (s'.rebase floor base) := by
  induction h with
  | known found => exact ⟨spare, .known found⟩
  | @build t h h' s s' fuel fresh head parts made ih =>
    rw [Course.finish_fuel] at spare
    obtain ⟨spare₁, run⟩ := Traverse.map (f := Course.rebase floor base) (S := NormalForm Q)
      (I := fun _ => True) (J := fun s => s.fuel.Spare floor)
      (ih.mono fun a s b s' step last => ⟨(step.2 last).1, fun _ => ⟨(step.2 last).2, trivial⟩⟩)
      spare
    obtain ⟨spare₂, head'⟩ := head.rebase spare₁ base
    rw [Course.finish_rebase]
    exact ⟨spare₂, .build fresh head' (run trivial).1 made⟩

theorem WeakHead.headed {t u : Term} {s s' : Fuel} (h : t.WeakHead Q s u s')
    (enough : s'.exhausted = false) : s.exhausted = false ∧ t.Headed Q u := by
  induction h with
  | stay none => exact ⟨enough, .stay none⟩
  | step head _ next made _ ih₁ ih₂ =>
    obtain ⟨enough', run₂⟩ := ih₂ enough
    obtain ⟨enough'', run₁⟩ := ih₁ enough'
    exact ⟨enough'', .step head run₁ next made run₂⟩
  | starved => cases enough
  | stuck head _ next made ih =>
    obtain ⟨enough', run⟩ := ih enough
    exact ⟨enough', .stuck head run next made⟩

theorem NormalForm.evaluates {t r : Term} {s s' : Course} (h : t.NormalForm Q s r s')
    (enough : s'.fuel.exhausted = false) :
    s.fuel.exhausted = false ∧ (s.Sound Q → t.Evaluates Q r ∧ s'.Sound Q) := by
  induction h with
  | known found => exact ⟨enough, fun sound => ⟨sound _ _ found, sound⟩⟩
  | @build t h h' s s' fuel fresh head parts made ih =>
    rw [Course.finish_fuel] at enough
    obtain ⟨enough₁, run⟩ := Traverse.map (f := fun _ => ()) (S := fun a _ b _ => a.Evaluates Q b)
      (I := Course.Sound Q) (J := fun s => s.fuel.exhausted = false)
      (ih.mono fun a s b s' step => step.2) enough
    obtain ⟨enough₂, headed⟩ := head.headed enough₁
    refine ⟨enough₂, fun sound => ?_⟩
    obtain ⟨parts', sound'⟩ := run sound
    have done : t.Evaluates Q h'.collapse := .build headed parts'.alike made
    exact ⟨done, Course.finish_memory sound' done⟩

variable {t r r' : Term} {c c' : Course} {m m' : Nat}

/-- The steps that a run takes are enough for it. -/
theorem NormalForm.with_budget (h : t.NormalForm Q (.start m) r c) (enough : c.fuel.exhausted = false)
    (le : m - c.fuel.left ≤ m') :
    ∃ c', t.NormalForm Q (.start m') r c' ∧ c'.fuel.exhausted = false ∧
      m' - c'.fuel.left = m - c.fuel.left := by
  obtain ⟨spare, run⟩ := h.rebase ⟨enough, Nat.le_refl _⟩ (m' - (m - c.fuel.left))
  have within : c.fuel.left ≤ m := spare.floor_le
  have start : Course.rebase c.fuel.left (m' - (m - c.fuel.left)) (.start m) = .start m' := by
    simp only [Course.rebase, Course.start, Fuel.rebase, Course.mk.injEq, Fuel.mk.injEq, and_true]
    omega
  rw [start] at run
  refine ⟨_, run, enough, ?_⟩
  simp only [Course.rebase, Fuel.rebase]
  omega

/-- Runs that lack no step agree, whatever their budgets. -/
theorem NormalForm.agree (h : t.NormalForm Q (.start m) r c) (enough : c.fuel.exhausted = false)
    (k : t.NormalForm Q' (.start m') r' c') (enough' : c'.fuel.exhausted = false) :
    r = r' ∧ m - c.fuel.left = m' - c'.fuel.left := by
  obtain ⟨d, run, -, used⟩ :=
    h.with_budget enough (Nat.le_max_left (m - c.fuel.left) (m' - c'.fuel.left))
  obtain ⟨d', run', -, used'⟩ :=
    k.with_budget enough' (Nat.le_max_right (m - c.fuel.left) (m' - c'.fuel.left))
  obtain ⟨rfl, rfl⟩ := run.deterministic run'
  exact ⟨rfl, used.symm.trans used'⟩

end Term

end GeneCalculus
