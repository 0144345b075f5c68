import GeneCalculus.Proofs.Sharing.Holding
import GeneCalculus.Proofs.Term.Parts

/-!
Going through the children of a node and through those of the tree it shows. What a step does to a
child and to the state on names, a relation on trees tells; `Shows.traverse` carries the step over
to all the children, in written order.
-/

namespace GeneCalculus

namespace Arena

/-- One child is replaced in arena and tree alike. The relation on trees may speak of what the arena
has in the end. -/
structure Follows {σ τ : Type} (arena : σ → Arena) (agree : σ → τ → Prop)
    (R : Arena → Term → τ → Term → τ → Prop) (s : σ) (x : Term) (u : τ) (out : NodeId × σ) :
    Prop where
  kept : arena s ≤ arena out.2
  told : ∃ y u', R (arena out.2) x u y u' ∧ agree out.2 u' ∧ (arena out.2).Holds out.1 y

theorem Shows.traverse {σ τ : Type} (arena : σ → Arena) (agree : σ → τ → Prop)
    {R : Arena → Term → τ → Term → τ → Prop} {n : Node NodeId} {t : Term} {s : σ} {u : τ}
    {f : (c : NodeId) → c ∈ n.children → σ → NodeId × σ}
    (grow : ∀ A B x u y u', A ≤ B → R A x u y u' → R B x u y u') (shown : (arena s).Shows n t)
    (start : agree s u)
    (step : ∀ c mem s' x u', arena s ≤ arena s' → agree s' u' → (arena s').Holds c x →
      Follows arena agree R s' x u' (f c mem s')) :
    arena s ≤ arena (n.traverse s f).2 ∧ ∃ t' u', t.Traverse (R (arena (n.traverse s f).2)) u t' u' ∧
      agree (n.traverse s f).2 u' ∧ (arena (n.traverse s f).2).Shows (n.traverse s f).1 t' := by
  cases shown with
  | var k => exact ⟨Arena.le_refl _, _, _, .var _ u, start, .var k⟩
  | atom a => exact ⟨Arena.le_refl _, _, _, .atom a u, start, .atom a⟩
  | lam x =>
    obtain ⟨k, _, _, r, g, y⟩ := step _ (by simp [Node.children]) s _ u (Arena.le_refl _) start x
    exact ⟨k, _, _, .lam r, g, .lam y⟩
  | neg x =>
    obtain ⟨k, _, _, r, g, y⟩ := step _ (by simp [Node.children]) s _ u (Arena.le_refl _) start x
    exact ⟨k, _, _, .neg r, g, .neg y⟩
  | binary form x₁ x₂ =>
    obtain ⟨k₁, _, _, r₁, g₁, y₁⟩ :=
      step _ (by simp [Node.children]) s _ u (Arena.le_refl _) start x₁
    obtain ⟨k₂, _, _, r₂, g₂, y₂⟩ := step _ (by simp [Node.children]) _ _ _ k₁ g₁ (x₂.mono k₁)
    exact ⟨Arena.le_trans k₁ k₂, _, _, .binary form (grow _ _ _ _ _ _ k₂ r₁) r₂, g₂,
      .binary form (y₁.mono k₂) y₂⟩
  | ternary form x₁ x₂ x₃ =>
    obtain ⟨k₁, _, _, r₁, g₁, y₁⟩ :=
      step _ (by simp [Node.children]) s _ u (Arena.le_refl _) start x₁
    obtain ⟨k₂, _, _, r₂, g₂, y₂⟩ := step _ (by simp [Node.children]) _ _ _ k₁ g₁ (x₂.mono k₁)
    have k₁₂ := Arena.le_trans k₁ k₂
    obtain ⟨k₃, _, _, r₃, g₃, y₃⟩ := step _ (by simp [Node.children]) _ _ _ k₁₂ g₂ (x₃.mono k₁₂)
    have k₂₃ := Arena.le_trans k₂ k₃
    exact ⟨Arena.le_trans k₁₂ k₃, _, _,
      .ternary form (grow _ _ _ _ _ _ k₂₃ r₁) (grow _ _ _ _ _ _ k₃ r₂) r₃, g₃,
      .ternary form (y₁.mono k₂₃) (y₂.mono k₃) y₃⟩
  | focus x₁ x₂ x₃ x₄ =>
    obtain ⟨k₁, _, _, r₁, g₁, y₁⟩ :=
      step _ (by simp [Node.children]) s _ u (Arena.le_refl _) start x₁
    obtain ⟨k₂, _, _, r₂, g₂, y₂⟩ := step _ (by simp [Node.children]) _ _ _ k₁ g₁ (x₂.mono k₁)
    have k₁₂ := Arena.le_trans k₁ k₂
    obtain ⟨k₃, _, _, r₃, g₃, y₃⟩ := step _ (by simp [Node.children]) _ _ _ k₁₂ g₂ (x₃.mono k₁₂)
    have k₁₃ := Arena.le_trans k₁₂ k₃
    obtain ⟨k₄, _, _, r₄, g₄, y₄⟩ := step _ (by simp [Node.children]) _ _ _ k₁₃ g₃ (x₄.mono k₁₃)
    have k₃₄ := Arena.le_trans k₃ k₄
    have k₂₄ := Arena.le_trans k₂ k₃₄
    exact ⟨Arena.le_trans k₁₃ k₄, _, _,
      .focus (grow _ _ _ _ _ _ k₂₄ r₁) (grow _ _ _ _ _ _ k₃₄ r₂) (grow _ _ _ _ _ _ k₄ r₃) r₄, g₄,
      .focus (y₁.mono k₂₄) (y₂.mono k₃₄) (y₃.mono k₄) y₄⟩

/-- A traversal on names goes where one on trees goes. -/
theorem Shows.traverse_along {σ τ : Type} (arena : σ → Arena) (agree : σ → τ → Prop)
    {R : Term → τ → Term → τ → Prop} {n : Node NodeId} {t t' : Term} {s : σ} {v v' : τ}
    {f : (c : NodeId) → c ∈ n.children → σ → NodeId × σ} (shown : (arena s).Shows n t)
    (told : t.Traverse R v t' v') (start : agree s v)
    (step : ∀ c mem s x w y w', agree s w → (arena s).Holds c x → R x w y w' →
      arena s ≤ arena (f c mem s).2 ∧ agree (f c mem s).2 w' ∧
        (arena (f c mem s).2).Holds (f c mem s).1 y) :
    agree (n.traverse s f).2 v' ∧ (arena (n.traverse s f).2).Shows (n.traverse s f).1 t' := by
  cases told with
  | var =>
    cases shown
    exact ⟨start, .var _⟩
  | atom =>
    cases shown
    exact ⟨start, .atom _⟩
  | lam r =>
    cases shown with | lam x
    obtain ⟨-, g, y⟩ := step _ (by simp [Node.children]) s _ _ _ _ start x r
    exact ⟨g, .lam y⟩
  | neg r =>
    cases shown with | neg x
    obtain ⟨-, g, y⟩ := step _ (by simp [Node.children]) s _ _ _ _ start x r
    exact ⟨g, .neg y⟩
  | binary form r₁ r₂ =>
    cases shown with | binary _ x₁ x₂
    obtain ⟨k₁, g₁, y₁⟩ := step _ (by simp [Node.children]) s _ _ _ _ start x₁ r₁
    obtain ⟨k₂, g₂, y₂⟩ := step _ (by simp [Node.children]) _ _ _ _ _ g₁ (x₂.mono k₁) r₂
    exact ⟨g₂, .binary form (y₁.mono k₂) y₂⟩
  | ternary form r₁ r₂ r₃ =>
    cases shown with | ternary _ x₁ x₂ x₃
    obtain ⟨k₁, g₁, y₁⟩ := step _ (by simp [Node.children]) s _ _ _ _ start x₁ r₁
    obtain ⟨k₂, g₂, y₂⟩ := step _ (by simp [Node.children]) _ _ _ _ _ g₁ (x₂.mono k₁) r₂
    have k₁₂ := Arena.le_trans k₁ k₂
    obtain ⟨k₃, g₃, y₃⟩ := step _ (by simp [Node.children]) _ _ _ _ _ g₂ (x₃.mono k₁₂) r₃
    exact ⟨g₃, .ternary form (y₁.mono (Arena.le_trans k₂ k₃)) (y₂.mono k₃) y₃⟩
  | focus r₁ r₂ r₃ r₄ =>
    cases shown with | focus x₁ x₂ x₃ x₄
    obtain ⟨k₁, g₁, y₁⟩ := step _ (by simp [Node.children]) s _ _ _ _ start x₁ r₁
    obtain ⟨k₂, g₂, y₂⟩ := step _ (by simp [Node.children]) _ _ _ _ _ g₁ (x₂.mono k₁) r₂
    have k₁₂ := Arena.le_trans k₁ k₂
    obtain ⟨k₃, g₃, y₃⟩ := step _ (by simp [Node.children]) _ _ _ _ _ g₂ (x₃.mono k₁₂) r₃
    have k₁₃ := Arena.le_trans k₁₂ k₃
    obtain ⟨k₄, g₄, y₄⟩ := step _ (by simp [Node.children]) _ _ _ _ _ g₃ (x₄.mono k₁₃) r₄
    have k₃₄ := Arena.le_trans k₃ k₄
    exact ⟨g₄, .focus (y₁.mono (Arena.le_trans k₂ k₃₄)) (y₂.mono k₃₄) (y₃.mono k₄) y₄⟩

end Arena

end GeneCalculus
