import GeneCalculus.Proofs.Calculus.Step

/-!
Reduction order does not matter. A parallel step contracts redexes all over a tree, those included
that contractions further down have made. Every parallel step leads on to the development of the
tree, in which nothing was left out, so reductions that part meet again and normal forms are unique.
-/

namespace GeneCalculus.Term

open Relation

/-- Redexes are contracted all over the tree, from the leaves up. -/
inductive Par : Term → Term → Prop
  | parts {t u : Term} : Alike Par t u → Par t u
  | contract {t u v : Term} : Alike Par t u → Contracts u v → Par t v

@[elab_as_elim, induction_eliminator]
theorem Par.induct {motive : ∀ {t u : Term}, t.Par u → Prop}
    (parts : ∀ {t u : Term} (h : Alike Par t u)
      (_ : Alike (fun a b => ∃ run : a.Par b, motive run) t u), motive (.parts h))
    (contract : ∀ {t u v : Term} (h : Alike Par t u) (contracted : Contracts u v)
      (_ : Alike (fun a b => ∃ run : a.Par b, motive run) t u), motive (.contract h contracted))
    {t u : Term} (run : t.Par u) : motive run :=
  Par.rec
    (motive_1 := fun _ _ run => motive run)
    (motive_2 := fun t u _ => Alike (fun a b => ∃ run : a.Par b, motive run) t u)
    (fun h ih => parts h ih) (fun h contracted ih => contract h contracted ih)
    (fun k => .var k) (fun a => .atom a)
    (fun a iha => .lam ⟨a, iha⟩) (fun a iha => .neg ⟨a, iha⟩)
    (fun form _ _ _ _ a b iha ihb => .binary form ⟨a, iha⟩ ⟨b, ihb⟩)
    (fun form _ _ _ _ _ _ a b c iha ihb ihc => .ternary form ⟨a, iha⟩ ⟨b, ihb⟩ ⟨c, ihc⟩)
    (fun a b c d iha ihb ihc ihd => .focus ⟨a, iha⟩ ⟨b, ihb⟩ ⟨c, ihc⟩ ⟨d, ihd⟩) run

variable {t u v w b x f g r : Term} {σ τ : Nat → Term}

theorem Par.refl (t : Term) : t.Par t := by
  induction t using child_induction with
  | step t ih => exact .parts (.self ih)

theorem Step.par (h : t.Step u) : t.Par u := by
  induction h with
  | here contracted => exact .contract (.self fun c _ => .refl c) contracted
  | lam _ ih => exact .parts (.lam ih)
  | neg _ ih => exact .parts (.neg ih)
  | binary₁ form b _ ih => exact .parts (.binary form ih (.refl b))
  | binary₂ form a _ ih => exact .parts (.binary form (.refl a) ih)
  | ternary₁ form b c _ ih => exact .parts (.ternary form ih (.refl b) (.refl c))
  | ternary₂ form a c _ ih => exact .parts (.ternary form (.refl a) ih (.refl c))
  | ternary₃ form a b _ ih => exact .parts (.ternary form (.refl a) (.refl b) ih)
  | focus₁ b c d _ ih => exact .parts (.focus ih (.refl b) (.refl c) (.refl d))
  | focus₂ a c d _ ih => exact .parts (.focus (.refl a) ih (.refl c) (.refl d))
  | focus₃ a b d _ ih => exact .parts (.focus (.refl a) (.refl b) ih (.refl d))
  | focus₄ a b c _ ih => exact .parts (.focus (.refl a) (.refl b) (.refl c) ih)

theorem Par.steps (h : t.Par u) : t.Steps u := by
  induction h with
  | parts _ ih => exact (ih.mono fun _ _ ⟨_, steps⟩ => steps).steps
  | contract _ contracted ih =>
    exact (ih.mono fun _ _ ⟨_, steps⟩ => steps).steps.trans contracted.steps

/-- The relation goes on under related substitutions, whatever relates them. -/
def Substitutive (R : Term → Term → Prop) : Prop :=
  ∀ P : (Nat → Term) → (Nat → Term) → Prop, (∀ σ τ, P σ τ → P (lift σ) (lift τ)) →
    (∀ σ τ, P σ τ → ∀ k, R (σ k) (τ k)) →
    ∀ t u, R t u → ∀ σ τ, P σ τ → R (t.bind σ) (u.bind τ)

section Bind

variable {P : (Nat → Term) → (Nat → Term) → Prop} {R : Term → Term → Prop}

theorem Alike.bind (h : Alike (fun a b => ∀ σ τ, P σ τ → R (a.bind σ) (b.bind τ)) t u)
    (lifts : ∀ σ τ, P σ τ → P (lift σ) (lift τ)) (related : P σ τ) :
    Alike R (t.bind σ) (u.bind τ) ∨ ∃ k, t = Term.var k ∧ u = Term.var k := by
  cases h with
  | var k => exact .inr ⟨k, rfl, rfl⟩
  | atom a => exact .inl (.atom a)
  | lam a => exact .inl (.lam (a _ _ (lifts _ _ related)))
  | neg a => exact .inl (.neg (a _ _ related))
  | binary form a b => exact .inl (.binary form (a _ _ related) (b _ _ related))
  | ternary form a b c =>
    exact .inl (.ternary form (a _ _ related) (b _ _ related) (c _ _ related))
  | focus a b c d =>
    exact .inl (.focus (a _ _ related) (b _ _ related) (c _ _ related) (d _ _ related))

theorem Substitutive.raise (subst : Substitutive R) (refl : ∀ t, R t t) (h : R t u) :
    R t.raise u.raise := by
  simp only [Term.raise, rename_eq_bind]
  refine subst (fun σ τ => σ = τ ∧ ∃ f, σ = fun k => var (f k)) ?_ ?_ _ _ h _ _
    ⟨rfl, Nat.succ, rfl⟩
  · rintro _ _ ⟨rfl, f, rfl⟩
    refine ⟨rfl, under f, ?_⟩
    funext k
    cases k <;> rfl
  · rintro _ _ ⟨rfl, f, rfl⟩ k
    exact refl _

theorem Substitutive.fill (subst : Substitutive R) (refl : ∀ t, R t t) (hb : R b t) (hx : R x u) :
    R (b.fill x) (t.fill u) := by
  refine subst (fun σ τ => ∀ k, R (σ k) (τ k)) ?_ (fun _ _ point => point) _ _ hb _ _ fun k => ?_
  · intro σ τ point k
    cases k with
    | zero => exact refl _
    | succ k => exact subst.raise refl (point k)
  · cases k with
    | zero => exact hx
    | succ k => exact refl _

end Bind

theorem Par.substitutive : Substitutive Par := by
  intro P lifts point t u h
  induction h with
  | @parts t u _ ih =>
    intro σ τ related
    rcases (ih.mono fun _ _ step => step.2).bind lifts related with alike | ⟨k, rfl, rfl⟩
    · exact .parts alike
    · exact point _ _ related k
  | contract _ contracted ih =>
    intro σ τ related
    rcases (ih.mono fun _ _ step => step.2).bind lifts related with alike | ⟨k, rfl, rfl⟩
    · exact .contract alike (contracted.bind τ)
    · cases contracted

theorem Par.fill (hb : b.Par t) (hx : x.Par u) : (b.fill x).Par (t.fill u) :=
  Par.substitutive.fill .refl hb hx

theorem Par.var_inv {k : Nat} (h : (Term.var k).Par u) : u = var k := by
  cases h with
  | parts alike => cases alike; rfl
  | contract alike contracted => cases alike; cases contracted

theorem Par.atom_inv {a : Atom} (h : (Term.atom a).Par u) : u = atom a := by
  cases h with
  | parts alike => cases alike; rfl
  | contract alike contracted => cases alike; cases contracted

theorem Par.lam_inv (h : (Term.lam b).Par u) :
    (∃ c, u = lam c ∧ b.Par c) ∨ u = ident ∧ b.Par (var 0) := by
  cases h with
  | parts alike =>
    cases alike with
    | lam step => exact .inl ⟨_, rfl, step⟩
  | contract alike contracted =>
    cases alike with
    | lam step =>
      cases contracted
      exact .inr ⟨rfl, step⟩

theorem Par.compose_inv (h : (Term.compose f g).Par u) :
    ∃ f' g', u = compose f' g' ∧ f.Par f' ∧ g.Par g' := by
  cases h with
  | parts alike =>
    cases alike with
    | binary _ left right => exact ⟨_, _, rfl, left, right⟩
  | contract alike contracted =>
    cases alike
    cases contracted

/-- Contracts the redex at the root, if there is one. -/
def reduce : Term → Term
  | app (lam body) x => body.fill x
  | app ident x => x
  | app (compose f g) x => app f (app g x)
  | choose (bool b) yes no => if b then yes else no
  | neg (bool b) => bool !b
  | lam (var 0) => ident
  | t => t

/-- All redexes are contracted from the leaves up, those included that arise on the way. -/
def develop : Term → Term
  | var k => var k
  | atom a => atom a
  | lam a => (lam a.develop).reduce
  | neg a => (neg a.develop).reduce
  | binary form a b => (binary form a.develop b.develop).reduce
  | ternary form a b c => (ternary form a.develop b.develop c.develop).reduce
  | focus a b c d => focus a.develop b.develop c.develop d.develop

theorem develop_eq (t : Term) : t.develop = (t.mapChildren develop).reduce := by
  cases t <;> rfl

theorem contracts_reduce (t : Term) : Contracts t t.reduce ∨ t.reduce = t := by
  unfold reduce
  split
  · exact .inl (.beta _ _)
  · exact .inl (.ident _)
  · exact .inl (.compose _ _ _)
  · exact .inl (.choose _ _ _)
  · exact .inl (.neg _)
  · exact .inl .identity
  · exact .inr rfl

/-- What a contraction leaves out of the parts can be made up for after it. -/
theorem Contracts.par_reduce (h : Contracts u v) (later : Alike Par u w) : v.Par w.reduce := by
  cases h with
  | beta body x =>
    cases later with
    | binary _ function argument =>
      rcases function.lam_inv with ⟨c, rfl, inner⟩ | ⟨rfl, inner⟩
      · exact inner.fill argument
      · exact inner.fill argument
  | ident x =>
    cases later with
    | binary _ function argument =>
      cases function.atom_inv
      exact argument
  | compose f g x =>
    cases later with
    | binary _ function argument =>
      obtain ⟨f', g', rfl, left, right⟩ := function.compose_inv
      exact .parts (.binary _ left (.parts (.binary _ right argument)))
  | choose b yes no =>
    cases later with
    | ternary _ cond yes no =>
      cases cond.atom_inv
      cases b with
      | true => exact yes
      | false => exact no
  | neg b =>
    cases later with
    | neg value =>
      cases value.atom_inv
      exact .refl _
  | identity =>
    cases later with
    | lam body =>
      cases body.var_inv
      exact .refl _

/-- Every parallel step leads on to the development. -/
theorem Par.develop (h : t.Par u) : u.Par t.develop := by
  induction h with
  | parts _ ih =>
    have later := (ih.mono fun _ _ ⟨_, step⟩ => step).flip_mapChildren
    rw [develop_eq]
    rcases contracts_reduce (mapChildren Term.develop _) with contracted | same
    · exact .contract later contracted
    · rw [same]
      exact .parts later
  | contract _ contracted ih =>
    have later := (ih.mono fun _ _ ⟨_, step⟩ => step).flip_mapChildren
    rw [develop_eq]
    exact contracted.par_reduce later

/-- Reductions that part meet again. -/
theorem Steps.confluent (h : t.Steps u) (k : t.Steps v) : Join Steps u v := by
  have same : ReflTransGen Par = Steps := by
    funext t u
    refine propext ⟨fun h => ?_, ReflTransGen.mono (fun _ _ => Step.par) t u⟩
    induction h with
    | refl => exact .refl
    | tail _ step ih => exact ih.trans step.steps
  rw [← same] at h k
  have meet := church_rosser (fun t u v (h : t.Par u) (k : t.Par v) =>
    ⟨t.develop, .single h.develop, .single k.develop⟩) h k
  rwa [same] at meet

/-- A tree has at most one normal form. -/
theorem Steps.normal_unique (h : t.Steps u) (k : t.Steps v) (normal : u.Normal)
    (normal' : v.Normal) : u = v := by
  obtain ⟨w, left, right⟩ := h.confluent k
  exact (normal.steps_eq left).symm.trans (normal'.steps_eq right)

end GeneCalculus.Term
