import GeneCalculus.Proofs.Calculus.Step
import GeneCalculus.Proofs.Rewrite.Saturation

/-!
Convertibility, the equality that canonicalization decides in part. It is the least congruence in
which a contraction is an equation, and so is a rule of the table, at whatever cost. Reduction and
rewriting go by its equations, so a tree is convertible to all that becomes of it.
-/

namespace GeneCalculus.Term

/-- The equations at the root of a tree. -/
inductive Equation : Term → Term → Prop
  | contracts {t u : Term} : Contracts t u → Equation t u
  | foldConstants {op : Operator} {a b v : Literal} : op.eval a b = some v →
      Equation (arith op (const a) (const b)) (const v)
  | dropIdentity (xs : Term) : Equation (map ident xs) xs
  | fuseMaps (f g xs : Term) : Equation (map f (map g xs)) (map (compose f g) xs)
  | fuseFilter (f p xs : Term) : Equation (map f (filter p xs)) (focus xs p f ident)

/-- The least congruence that contains the equations. -/
inductive Convertible : Term → Term → Prop
  | equation {t u : Term} : Equation t u → Convertible t u
  | refl (t : Term) : Convertible t t
  | symm {t u : Term} : Convertible t u → Convertible u t
  | trans {t u v : Term} : Convertible t u → Convertible u v → Convertible t v
  | lam {a a' : Term} : Convertible a a' → Convertible (lam a) (lam a')
  | neg {a a' : Term} : Convertible a a' → Convertible (neg a) (neg a')
  | binary (form : Binary) {a a' b b' : Term} : Convertible a a' → Convertible b b' →
      Convertible (binary form a b) (binary form a' b')
  | ternary (form : Ternary) {a a' b b' c c' : Term} : Convertible a a' → Convertible b b' →
      Convertible c c' → Convertible (ternary form a b c) (ternary form a' b' c')
  | focus {a a' b b' c c' d d' : Term} : Convertible a a' → Convertible b b' → Convertible c c' →
      Convertible d d' → Convertible (focus a b c d) (focus a' b' c' d')

variable {t u : Term} {laws : List Law} {n : Nat}

theorem Step.convertible (h : t.Step u) : t.Convertible u := by
  induction h with
  | here contracted => exact .equation (.contracts contracted)
  | lam _ ih => exact .lam ih
  | neg _ ih => exact .neg ih
  | binary₁ form b _ ih => exact .binary form ih (.refl b)
  | binary₂ form a _ ih => exact .binary form (.refl a) ih
  | ternary₁ form b c _ ih => exact .ternary form ih (.refl b) (.refl c)
  | ternary₂ form a c _ ih => exact .ternary form (.refl a) ih (.refl c)
  | ternary₃ form a b _ ih => exact .ternary form (.refl a) (.refl b) ih
  | focus₁ b c d _ ih => exact .focus ih (.refl b) (.refl c) (.refl d)
  | focus₂ a c d _ ih => exact .focus (.refl a) ih (.refl c) (.refl d)
  | focus₃ a b d _ ih => exact .focus (.refl a) (.refl b) ih (.refl d)
  | focus₄ a b c _ ih => exact .focus (.refl a) (.refl b) (.refl c) ih

/-- A rule makes of a tree what an equation says. -/
theorem equation_of_outcome? {law : Law} (made : law.outcome? t = some u) : Equation t u := by
  cases Law.outcome?_eq_some_iff.1 made with
  | foldConstants value => exact .foldConstants value
  | dropIdentity => exact .dropIdentity u
  | fuseMaps f g xs => exact .fuseMaps f g xs
  | fuseFilter f p xs => exact .fuseFilter f p xs

theorem improve_cases (laws : List Law) (t : Term) : t.improve laws = t ∨ Equation t (t.improve laws) := by
  unfold improve
  cases found : t.improve? laws with
  | none => exact .inl rfl
  | some best => exact .inr (equation_of_outcome? (outcome?_of_improve? found).2.1)

theorem convertible_improve (laws : List Law) (t : Term) : t.Convertible (t.improve laws) := by
  rcases improve_cases laws t with same | equal
  · exact same.symm ▸ .refl t
  · exact .equation equal

theorem convertible_mapChildren {f : Term → Term} (parts : ∀ c ∈ t.children, c.Convertible (f c)) :
    t.Convertible (t.mapChildren f) := by
  cases t <;> simp only [children, List.forall_mem_cons, List.not_mem_nil, false_imp_iff,
    implies_true, and_true] at parts
  case var | atom => exact .refl _
  case lam => exact .lam parts
  case neg => exact .neg parts
  case binary => exact .binary _ parts.1 parts.2
  case ternary => exact .ternary _ parts.1 parts.2.1 parts.2.2
  case focus => exact .focus parts.1 parts.2.1 parts.2.2.1 parts.2.2.2

/-- A tree is convertible to what a pass makes of it. -/
theorem convertible_pass (laws : List Law) (t : Term) : t.Convertible (t.pass laws) := by
  induction t using child_induction with
  | step t ih =>
    rw [pass_eq]
    exact (convertible_mapChildren ih).trans (convertible_improve laws _)

/-- All that a saturation does, one pass does, or it does nothing. -/
theorem Saturates.result_eq {cap passes : Nat} {applied : Tally} {out : Settled}
    (h : t.Saturates laws cap passes applied out) : out.result = t ∨ out.result = t.pass laws := by
  cases cap with
  | zero =>
    cases h
    exact .inl rfl
  | succ cap => exact .inr h.first.1

theorem level_outcome?_le {law : Law} (made : law.outcome? t = some u) : u.level ≤ t.level := by
  cases equation_of_outcome? made with
  | contracts h => exact h.level_le
  | _ => simp only [level]; omega

theorem level_improve_le (laws : List Law) (t : Term) : (t.improve laws).level ≤ t.level := by
  unfold improve
  cases found : t.improve? laws with
  | none => exact Nat.le_refl _
  | some best => exact level_outcome?_le (outcome?_of_improve? found).2.1

/-- No variable points further out after a pass. -/
theorem level_pass_le (laws : List Law) (t : Term) : (t.pass laws).level ≤ t.level := by
  induction t with
  | var | atom => exact level_improve_le laws _
  | _ =>
    refine Nat.le_trans (level_improve_le laws _) ?_
    simp only [level]
    omega

end GeneCalculus.Term
