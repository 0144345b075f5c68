import GeneCalculus.Proofs.Calculus.Nesting
import GeneCalculus.Proofs.Calculus.Standard
import GeneCalculus.Proofs.Reduction.Growth
import GeneCalculus.Proofs.Sharing.Closure

/-!
Normalization finds every normal form. A run at the head makes the head steps that are due, and the
parts are normalized when none is due any more. So a tree that finishes by head steps, part by part,
takes as many steps as these are in all, and fewer where parts are shared.
-/

namespace GeneCalculus

open Term (words Steps)

/-- With `b` steps no step is lacking, and no more than that are spent. -/
def Fuel.Spends (b : Nat) (s s' : Fuel) : Prop :=
  s.exhausted = false → b ≤ s.left → s'.exhausted = false ∧ s.left ≤ s'.left + b

theorem Fuel.Spends.refl (s : Fuel) : s.Spends 0 s := fun enough _ => ⟨enough, Nat.le_refl _⟩

theorem Fuel.Spends.trans {a b : Nat} {s s₁ s₂ : Fuel} (first : s.Spends a s₁)
    (second : s₁.Spends b s₂) : s.Spends (a + b) s₂ := by
  intro enough le
  obtain ⟨enough₁, spent₁⟩ := first enough (by omega)
  obtain ⟨enough₂, spent₂⟩ := second enough₁ (by omega)
  exact ⟨enough₂, by omega⟩

namespace Term

variable {t u h n c : Term} {k : Nat}

theorem collapse_of_head (head : t.head? = some c) : t.collapse = t := by
  unfold head? at head
  split at head <;> cases head <;> rfl

/-- A run at the head makes head steps, one for each that it spends, until none is due or none is
left to spend. -/
theorem WeakHead.headSteps {s s' : Fuel} (run : t.WeakHead Builds s u s') :
    ∃ k, t.HeadSteps k u ∧ s.left = s'.left + k ∧
      (s'.exhausted = s.exhausted ∧ u.HeadNormal ∨ s'.left = 0 ∧ ∃ v, u.HeadStep v) := by
  induction run with
  | stay none => exact ⟨0, .refl _, rfl, .inl ⟨rfl, .of_head none⟩⟩
  | step head _ next made _ ih₁ ih₂ =>
    obtain ⟨k, inner, spent, ⟨same, -⟩ | ⟨zero, -⟩⟩ := ih₁
    · obtain ⟨l, rest, spent', last⟩ := ih₂
      refine ⟨k + 1 + l, (inner.contract head (made.contracts next)).trans rest, ?_, ?_⟩
      · simp only at spent spent'
        omega
      · rwa [← same]
    · cases zero
  | starved head _ next made ih =>
    obtain ⟨k, inner, spent, -⟩ := ih
    obtain ⟨v, contracted⟩ := contract?_isSome (Option.isSome_of_mem next)
    exact ⟨k, inner.withHead head, spent, .inr ⟨rfl, v, .contract (head?_withHead head _) contracted⟩⟩
  | @stuck t c d s s' head _ next made ih =>
    obtain ⟨k, inner, spent, last⟩ := ih
    have head' := head?_withHead head d
    refine ⟨k, inner.withHead head, spent, ?_⟩
    rcases last with ⟨same, still⟩ | ⟨zero, v, step⟩
    · have inert : (t.withHead d).Inert := ⟨next, collapse_of_head head'⟩
      exact .inl ⟨same, still.withHead head (inert_iff.1 inert)⟩
    · exact .inr ⟨zero, _, .inner head' step⟩

/-- A run that may spend as many steps as there are head steps makes them all. -/
theorem WeakHead.finishes {s s' : Fuel} (run : t.WeakHead Builds s u s') (head : t.HeadSteps k h)
    (still : h.HeadNormal) (enough : s.exhausted = false) (le : k ≤ s.left) :
    u = h ∧ s'.exhausted = false ∧ s.left = s'.left + k := by
  obtain ⟨l, steps, spent, ⟨same, still'⟩ | ⟨zero, v, step⟩⟩ := run.headSteps
  · obtain ⟨m, rfl, rest⟩ := head.ahead still steps
    cases rest with
    | refl => exact ⟨rfl, same.trans enough, spent⟩
    | head step => exact (still' _ step).elim
  · -- a step is due, so there are more head steps than could be spent
    obtain ⟨m, rfl, -⟩ := head.ahead still (steps.trans (.head step (.refl v)))
    omega

/-- Going through the children spends no more than is spent for each of them. -/
theorem Traverse.spends {b : Term → Nat} {s s' : Course}
    (run : t.Traverse (fun c s _ s' => s.fuel.Spends (b c) s'.fuel) s u s') :
    s.fuel.Spends (t.children.map b).sum s'.fuel := by
  cases run with
  | var | atom => exact .refl _
  | lam a | neg a => exact a
  | binary _ a b => exact a.trans b
  | ternary _ a b c => exact a.trans (b.trans c)
  | focus a b c d => exact a.trans (b.trans (c.trans d))

/-- A normalization of the tree in words is done with `b` steps, wherever it goes on. -/
def DoneWithin (t : Term) (b : Nat) : Prop :=
  ∀ {A : Arena} {n : Nat} {f : Nat → Term} {s s' : Course} {r : Term}, A.size ≤ words →
    Nest A n f t → A.Has t → t.NormalForm (fun _ => A.Has) s r s' → s.fuel.Spends b s'.fuel

theorem Finishes.exists_doneWithin (finishes : t.Finishes) : ∃ b, t.DoneWithin b := by
  induction finishes with
  | @intro k t h head still _ ih =>
    have bounds : ∀ c, ∃ b, c ∈ h.children → c.DoneWithin b := by
      intro c
      by_cases mem : c ∈ h.children
      · exact (ih c mem).imp fun b within _ => within
      · exact ⟨0, fun inside => absurd inside mem⟩
    choose b within using bounds
    refine ⟨k + (h.children.map b).sum, fun {A n f s s' r} bound nest has run => ?_⟩
    cases run with
    | known => exact fun enough _ => ⟨enough, Nat.le_add_right _ _⟩
    | @build _ u h' _ s' fuel _ head' parts made =>
      rw [Course.finish_fuel]
      obtain ⟨run, nest', has'⟩ := head'.to_builds bound nest has
      intro enough le
      obtain ⟨rfl, enough', spent⟩ := run.finishes head still enough (by omega)
      have inner : u.Traverse (fun c s _ s' => s.fuel.Spends (b c) s'.fuel)
          ⟨fuel, s.done⟩ h' s' := by
        refine parts.mem.mono fun c s d s' ⟨mem, step⟩ => ?_
        obtain ⟨m, g, nest''⟩ := nest'.child has' mem
        exact within c mem bound nest'' (has'.of_mem_children mem) step
      obtain ⟨enough'', spent'⟩ := inner.spends enough' (by simp only; omega)
      exact ⟨enough'', by simp only at spent'; omega⟩

end Term

namespace Arena

/-- If a closed expression can be reduced to a tree that allows no step, in whatever order and at
whatever places, every normalization with enough steps lacks none and leaves that tree, as long as
the arena has no more nodes than there are words. -/
theorem normalize_complete (A : Arena) (root : NodeId) (n : Term)
    (closed : A.validateClosed root = .ok ()) (steps : (A.term root).Steps n)
    (normal : ∀ u, ¬ n.Step u) :
    ∃ enough, ∀ m, enough ≤ m → (A.normalize root m).2.size ≤ Term.words →
      (A.normalize root m).1.exhausted = false ∧
        (A.normalize root m).2.Holds (A.normalize root m).1.result n := by
  obtain ⟨known, closed⟩ := validateClosed_iff.1 closed
  have h := holds_term known
  have normal := Term.normal_iff.2 normal
  obtain ⟨b, within⟩ := (steps.finishes normal).exists_doneWithin
  refine ⟨b, fun m le small => ?_⟩
  obtain ⟨keep, r, c, run, made, -, lacked⟩ := normalize_holds h m
  have has : (A.normalize root m).2.Has (A.term root) := ⟨root, h.mono keep⟩
  obtain ⟨enough, -⟩ := within small (.of_closed closed) has run rfl le
  have reduction := (run.to_steps_of_closed small has closed).evaluates_start enough
  have same : r = n := reduction.steps.normal_unique steps reduction.normal normal
  exact ⟨lacked.trans enough, same ▸ made⟩

/-- An argument that never comes to an end is discarded. -/
theorem discarded_argument_complete :
    let twice : Term := .lam (.app (.var 0) (.var 0))
    let endless : Term := .app twice twice
    let t : Term := .app (.lam (.lam (.var 0))) endless
    let A := (empty.plant t).2
    let root := (empty.plant t).1
    (A.validateClosed root = .ok () ∧ (A.term root).Steps .ident ∧ (∀ u, ¬ Term.ident.Step u) ∧
        endless.Step endless) ∧
      ∃ enough, ∀ m, enough ≤ m → (A.normalize root m).1.exhausted = false ∧
        (A.normalize root m).2.Holds (A.normalize root m).1.result .ident := by
  intro twice endless t A root
  -- all that is ever built
  let l : List Term := [.var 0, .app (.var 0) (.var 0), twice, endless, .lam (.var 0),
    .lam (.lam (.var 0)), t, .ident]
  have down : Term.Downward (· ∈ l) := by decide
  have planted := empty.plant_makes (t := t) (by decide)
  have held : A.Holds root t := planted.made
  have only : A.Only (· ∈ l) := planted.only_parts down (by decide)
  have run : ∀ m, ∃ r c, t.NormalForm (fun _ => (· ∈ l)) (.start (m + 1)) r c := fun m =>
    ⟨_, _, .build rfl (.step rfl (.stay rfl) rfl (by decide) (.stay rfl))
      (.lam (.build rfl (.stay rfl) (.var 0 _) (by decide))) (by decide)⟩
  have small : ∀ m, (A.normalize root (m + 1)).2.size ≤ Term.words := fun m => by
    obtain ⟨r, c, run⟩ := run m
    exact Nat.le_trans (size_normalize_le down held only run) (by decide)
  have closed : A.validateClosed root = .ok () := held.validateClosed rfl
  have steps : (A.term root).Steps .ident := by
    have discard : t.Step (.lam (.var 0)) := .here (.beta (.lam (.var 0)) endless)
    rw [held.2]
    exact .tail (.single discard) (.here .identity)
  have normal : ∀ u, ¬ Term.ident.Step u := Term.normal_iff.1 (by decide)
  have again : endless.Step endless := .here (.beta (.app (.var 0) (.var 0)) twice)
  obtain ⟨b, complete⟩ := normalize_complete A root .ident closed steps normal
  refine ⟨⟨closed, steps, normal, again⟩, b + 1, fun m le => ?_⟩
  obtain ⟨m, rfl⟩ := Nat.exists_eq_add_one_of_ne_zero (Nat.ne_of_gt (Nat.lt_of_lt_of_le b.succ_pos le))
  exact complete (m + 1) (Nat.le_of_succ_le le) (small m)

end Arena

end GeneCalculus
