import GeneCalculus.Proofs.Term.Parts

/-!
Substitution of the calculus, with indices of any size. All free variables are replaced at once, so
one law tells how substitutions follow each other.
-/

namespace GeneCalculus.Term

/-- The renaming under one more binder. -/
def under (f : Nat → Nat) : Nat → Nat
  | 0 => 0
  | k + 1 => f k + 1

/-- Renames the free variables. -/
def rename (f : Nat → Nat) : Term → Term
  | var k => var (f k)
  | atom a => atom a
  | lam a => lam (a.rename (under f))
  | neg a => neg (a.rename f)
  | binary form a b => binary form (a.rename f) (b.rename f)
  | ternary form a b c => ternary form (a.rename f) (b.rename f) (c.rename f)
  | focus a b c d => focus (a.rename f) (b.rename f) (c.rename f) (d.rename f)

/-- The tree under one more binder. -/
abbrev raise (t : Term) : Term := t.rename Nat.succ

/-- The substitution under one more binder. -/
def lift (σ : Nat → Term) : Nat → Term
  | 0 => var 0
  | k + 1 => (σ k).raise

/-- Replaces the free variables. -/
def bind (σ : Nat → Term) : Term → Term
  | var k => σ k
  | atom a => atom a
  | lam a => lam (a.bind (lift σ))
  | neg a => neg (a.bind σ)
  | binary form a b => binary form (a.bind σ) (b.bind σ)
  | ternary form a b c => ternary form (a.bind σ) (b.bind σ) (c.bind σ)
  | focus a b c d => focus (a.bind σ) (b.bind σ) (c.bind σ) (d.bind σ)

/-- Puts `x` for the first variable. -/
def first (x : Term) (σ : Nat → Term) : Nat → Term
  | 0 => x
  | k + 1 => σ k

/-- The body of a binder with `x` for its variable. -/
def fill (body x : Term) : Term := body.bind (first x var)

variable (f g : Nat → Nat) (σ τ : Nat → Term) (t b x : Term)

theorem under_comp : under g ∘ under f = under (g ∘ f) := by
  funext k
  cases k <;> rfl

theorem lift_var : lift var = var := by
  funext k
  cases k <;> rfl

theorem lift_under : lift σ ∘ under f = lift (σ ∘ f) := by
  funext k
  cases k <;> rfl

theorem rename_rename : (t.rename f).rename g = t.rename (g ∘ f) := by
  induction t generalizing f g with
  | lam a ih => simp only [rename, ih, under_comp]
  | _ => simp only [rename, Function.comp_apply, *]

theorem bind_rename : (t.rename f).bind σ = t.bind (σ ∘ f) := by
  induction t generalizing f σ with
  | lam a ih => simp only [rename, bind, ih, lift_under]
  | _ => simp only [rename, bind, Function.comp_apply, *]

theorem rename_lift : (fun k => (lift σ k).rename (under f)) = lift fun k => (σ k).rename f := by
  funext k
  cases k with
  | zero => rfl
  | succ k =>
    simp only [lift, raise, rename_rename]
    rfl

theorem rename_bind : (t.bind σ).rename f = t.bind fun k => (σ k).rename f := by
  induction t generalizing f σ with
  | lam a ih => simp only [rename, bind, ih, rename_lift]
  | _ => simp only [rename, bind, *]

theorem bind_lift : (fun k => (lift σ k).bind (lift τ)) = lift fun k => (σ k).bind τ := by
  funext k
  cases k with
  | zero => rfl
  | succ k =>
    simp only [lift, raise, bind_rename, rename_bind]
    rfl

/-- Substitutions follow each other. -/
theorem bind_bind : (t.bind σ).bind τ = t.bind fun k => (σ k).bind τ := by
  induction t generalizing σ τ with
  | lam a ih => simp only [bind, ih, bind_lift]
  | _ => simp only [bind, *]

theorem bind_var : t.bind var = t := by
  induction t with
  | lam a ih => simp only [bind, lift_var, ih]
  | _ => simp only [bind, *]

theorem rename_eq_bind : t.rename f = t.bind fun k => var (f k) := by
  rw [← bind_var (t.rename f), bind_rename]
  rfl

/-- Substitution goes past the filling of a body. -/
theorem fill_bind : (b.fill x).bind σ = (b.bind (lift σ)).fill (x.bind σ) := by
  simp only [fill, bind_bind]
  congr 1
  funext k
  cases k with
  | zero => rfl
  | succ k =>
    simp only [lift, raise, bind_rename]
    exact (bind_var (σ k)).symm

end GeneCalculus.Term
