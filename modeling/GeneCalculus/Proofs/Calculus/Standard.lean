import GeneCalculus.Proofs.Calculus.HeadStep
import GeneCalculus.Proofs.Calculus.Parallel

/-!
Standard reductions. Such a reduction makes head steps first and is standard in the parts after
that; only the function that gives back its argument becomes the identity after a reduction of its
body. Every reduction can be made standard. So whatever has a normal form is reduced to it by head
steps in the tree and then in what it consists of, and parts that are discarded are not touched.
-/

namespace GeneCalculus.Term

/-- The tree is reduced at its head, then in its parts. -/
inductive Standard : Term → Term → Prop
  | parts {k : Nat} {t h u : Term} : t.HeadSteps k h → Alike Standard h u → Standard t u
  | identity {k : Nat} {t a : Term} : t.HeadSteps k (lam a) → Standard a (var 0) → Standard t ident

@[elab_as_elim, induction_eliminator]
theorem Standard.induct {motive : ∀ {t u : Term}, t.Standard u → Prop}
    (parts : ∀ {k : Nat} {t h u : Term} (head : t.HeadSteps k h) (parts : Alike Standard h u)
      (_ : Alike (fun a b => ∃ run : a.Standard b, motive run) h u), motive (.parts head parts))
    (identity : ∀ {k : Nat} {t a : Term} (head : t.HeadSteps k (lam a)) (body : a.Standard (var 0))
      (_ : motive body), motive (.identity head body))
    {t u : Term} (run : t.Standard u) : motive run :=
  Standard.rec
    (motive_1 := fun _ _ run => motive run)
    (motive_2 := fun t u _ => Alike (fun a b => ∃ run : a.Standard b, motive run) t u)
    (fun head alike ih => parts head alike ih) (fun head body ih => identity head body ih)
    (fun k => .var k) (fun a => .atom a)
    (fun a iha => .lam ⟨a, iha⟩) (fun a iha => .neg ⟨a, iha⟩)
    (fun form _ _ _ _ a b iha ihb => .binary form ⟨a, iha⟩ ⟨b, ihb⟩)
    (fun form _ _ _ _ _ _ a b c iha ihb ihc => .ternary form ⟨a, iha⟩ ⟨b, ihb⟩ ⟨c, ihc⟩)
    (fun a b c d iha ihb ihc ihd => .focus ⟨a, iha⟩ ⟨b, ihb⟩ ⟨c, ihc⟩ ⟨d, ihd⟩) run

variable {t u v h n a b c d x : Term} {k : Nat}

theorem Standard.refl (t : Term) : t.Standard t := by
  induction t using child_induction with
  | step t ih => exact .parts (.refl t) (.self ih)

/-- Head steps may be made before. -/
theorem Standard.after (run : h.Standard u) (head : t.HeadSteps k h) : t.Standard u := by
  cases run with
  | parts head' alike => exact .parts (head.trans head') alike
  | identity head' body => exact .identity (head.trans head') body

theorem Standard.substitutive : Substitutive Standard := by
  intro P lifts point t u run
  induction run with
  | parts head _ ih =>
    intro σ τ related
    rcases (ih.mono fun _ _ step => step.2).bind lifts related with alike | ⟨k, rfl, rfl⟩
    · exact .parts (head.bind σ) alike
    · exact (point _ _ related k).after (head.bind σ)
  | identity head _ ih =>
    intro σ τ related
    exact .identity (head.bind σ) (ih (lift σ) (lift τ) (lifts _ _ related))

theorem Standard.fill (hb : b.Standard t) (hx : x.Standard u) : (b.fill x).Standard (t.fill u) :=
  Standard.substitutive.fill .refl hb hx

/-- A standard reduction goes on with a contraction at the root. -/
theorem Standard.contract (run : t.Standard u) (contracted : Contracts u v) : t.Standard v := by
  cases run with
  | identity => cases contracted
  | parts head alike =>
    refine Standard.after ?_ head
    cases contracted with
    | beta body y =>
      cases alike with | binary _ function argument
      cases function with
      | parts inner alike =>
        cases alike with | lam body
        exact (body.fill argument).after (.contract rfl inner (.beta _ _))
    | ident y =>
      cases alike with | binary _ function argument
      cases function with
      | parts inner alike =>
        cases alike
        exact argument.after (.contract rfl inner (.ident _))
      | identity inner body =>
        -- it is still a function when it is applied, and its body comes to its argument
        exact (body.fill argument).after (.contract rfl inner (.beta _ _))
    | compose f g y =>
      cases alike with | binary _ function argument
      cases function with
      | parts inner alike =>
        cases alike with | binary _ left right
        have rest : Standard (app _ (app _ _)) (app f (app g y)) :=
          .parts (.refl _) (.binary .app left (.parts (.refl _) (.binary .app right argument)))
        exact rest.after (.contract rfl inner (.compose _ _ _))
    | choose b yes no =>
      cases alike with | ternary _ cond yes no
      cases cond with
      | parts inner alike =>
        cases alike
        cases b with
        | true => exact yes.after (.contract rfl inner (.choose true _ _))
        | false => exact no.after (.contract rfl inner (.choose false _ _))
    | neg b =>
      cases alike with | neg value
      cases value with
      | parts inner alike =>
        cases alike
        exact (Standard.refl _).after (.contract rfl inner (.neg b))
    | identity =>
      cases alike with | lam body
      exact .identity (.refl _) body

/-- A standard reduction goes on with any step. -/
theorem Standard.step (run : t.Standard u) (step : u.Step v) : t.Standard v := by
  induction step generalizing t with
  | here contracted => exact run.contract contracted
  | lam _ ih =>
    cases run with | parts head alike
    cases alike with | lam a
    exact .parts head (.lam (ih a))
  | neg _ ih =>
    cases run with | parts head alike
    cases alike with | neg a
    exact .parts head (.neg (ih a))
  | binary₁ form _ _ ih =>
    cases run with | parts head alike
    cases alike with | binary _ a b
    exact .parts head (.binary form (ih a) b)
  | binary₂ form _ _ ih =>
    cases run with | parts head alike
    cases alike with | binary _ a b
    exact .parts head (.binary form a (ih b))
  | ternary₁ form _ _ _ ih =>
    cases run with | parts head alike
    cases alike with | ternary _ a b c
    exact .parts head (.ternary form (ih a) b c)
  | ternary₂ form _ _ _ ih =>
    cases run with | parts head alike
    cases alike with | ternary _ a b c
    exact .parts head (.ternary form a (ih b) c)
  | ternary₃ form _ _ _ ih =>
    cases run with | parts head alike
    cases alike with | ternary _ a b c
    exact .parts head (.ternary form a b (ih c))
  | focus₁ _ _ _ _ ih =>
    cases run with | parts head alike
    cases alike with | focus a b c d
    exact .parts head (.focus (ih a) b c d)
  | focus₂ _ _ _ _ ih =>
    cases run with | parts head alike
    cases alike with | focus a b c d
    exact .parts head (.focus a (ih b) c d)
  | focus₃ _ _ _ _ ih =>
    cases run with | parts head alike
    cases alike with | focus a b c d
    exact .parts head (.focus a b (ih c) d)
  | focus₄ _ _ _ _ ih =>
    cases run with | parts head alike
    cases alike with | focus a b c d
    exact .parts head (.focus a b c (ih d))

/-- Every reduction can be made standard. -/
theorem Steps.standard (steps : t.Steps u) : t.Standard u := by
  induction steps with
  | refl => exact .refl t
  | tail _ step ih => exact ih.step step

/-- A tree that no head step is due in has the form of what it is reduced to, unless it becomes the
identity. -/
theorem Standard.alike (run : t.Standard u) (normal : t.HeadNormal) :
    Alike Standard t u ∨ (∃ a, t = lam a) ∧ u = ident := by
  cases run with
  | parts head alike =>
    cases head with
    | refl => exact .inl alike
    | head step => exact (normal _ step).elim
  | identity head =>
    cases head with
    | refl => exact .inr ⟨⟨_, rfl⟩, rfl⟩
    | head step => exact (normal _ step).elim

/-- What a redex is reduced to in its parts is a redex too. -/
theorem Contracts.of_alike (contracted : Contracts t v) (head : t.head? = some c)
    (alike : Alike Standard t n) : ∃ w, Contracts n w := by
  cases contracted with
  | beta =>
    cases alike with | binary _ function argument
    rcases function.alike (.of_head rfl) with same | ⟨-, rfl⟩
    · cases same
      exact ⟨_, .beta _ _⟩
    · exact ⟨_, .ident _⟩
  | ident =>
    cases alike with | binary _ function argument
    rcases function.alike (.of_head rfl) with same | ⟨⟨_, same⟩, -⟩
    · cases same
      exact ⟨_, .ident _⟩
    · cases same
  | compose =>
    cases alike with | binary _ function argument
    rcases function.alike (.of_head rfl) with same | ⟨⟨_, same⟩, -⟩
    · cases same
      exact ⟨_, .compose _ _ _⟩
    · cases same
  | choose b =>
    cases alike with | ternary _ cond yes no
    rcases cond.alike (.of_head rfl) with same | ⟨⟨_, same⟩, -⟩
    · cases same
      exact ⟨_, .choose b _ _⟩
    · cases same
  | neg b =>
    cases alike with | neg value
    rcases value.alike (.of_head rfl) with same | ⟨⟨_, same⟩, -⟩
    · cases same
      exact ⟨_, .neg b⟩
    · cases same
  | identity => cases head

/-- The deciding part has its counterpart, and may be replaced by what is related to that too. -/
theorem Alike.withHead {R : Term → Term → Prop} (alike : Alike R t n) (head : t.head? = some c) :
    ∃ d, n.head? = some d ∧ R c d ∧ ∀ c', R c' d → Alike R (t.withHead c') n := by
  unfold head? at head
  split at head <;> cases head <;> cases alike
  case h_1 function argument =>
    exact ⟨_, rfl, function, fun _ other => .binary .app other argument⟩
  case h_2 cond yes no => exact ⟨_, rfl, cond, fun _ other => .ternary .choose other yes no⟩
  case h_3 value => exact ⟨_, rfl, value, fun _ other => .neg other⟩

/-- Reduction at the head ends, and so it does in the parts of where it ends. -/
inductive Finishes : Term → Prop
  | intro {k : Nat} {t h : Term} : t.HeadSteps k h → h.HeadNormal →
      (∀ c ∈ h.children, Finishes c) → Finishes t

/-- A standard reduction to a normal tree leads through a tree that no head step is due in. -/
theorem Standard.exists_headNormal (run : t.Standard n) (normal : n.Normal) :
    ∃ k h, t.HeadSteps k h ∧ h.HeadNormal ∧ h.Standard n ∧ ∀ c ∈ h.children, c.Finishes := by
  induction run with
  | @parts k t h n head alike ih =>
    have finishes : ∀ c ∈ h.children, c.Finishes := by
      intro c mem
      obtain ⟨d, -, mem', -, later⟩ := ih.mem.left c mem
      obtain ⟨l, e, steps, still, -, below⟩ := later (normal.child mem')
      exact .intro steps still below
    cases decided : h.head? with
    | none => exact ⟨k, h, head, .of_head decided, .parts (.refl h) alike, finishes⟩
    | some c =>
      -- the deciding part is reduced to its own head normal form, in which it decides nothing
      obtain ⟨d, decided', ⟨-, later⟩, -⟩ := ih.withHead decided
      obtain ⟨d', same, -, other⟩ := alike.withHead decided
      cases decided'.symm.trans same
      obtain ⟨l, e, steps, still, inner, below⟩ := later (normal.child (head?_mem decided'))
      have alike' : Alike Standard (h.withHead e) n := other e inner
      refine ⟨k + l, h.withHead e, head.trans (steps.withHead decided), ?_, ?_, ?_⟩
      · refine still.withHead decided fun u contracted => ?_
        obtain ⟨w, redex⟩ := contracted.of_alike (head?_withHead decided e) alike'
        exact redex.not_inert normal.root
      · exact .parts (.refl _) alike'
      · intro b mem
        rcases mem_children_withHead decided mem with rfl | mem
        · exact .intro (.refl b) still below
        · exact finishes b mem
  | @identity k t a head body ih =>
    obtain ⟨l, e, steps, still, -, below⟩ := ih (by decide)
    refine ⟨k, lam a, head, .of_head rfl, .identity (.refl _) body, fun c mem => ?_⟩
    cases List.mem_singleton.1 mem
    exact .intro steps still below

/-- Whatever has a normal form is reduced to the end by head steps, part by part. -/
theorem Steps.finishes (steps : t.Steps n) (normal : n.Normal) : t.Finishes := by
  obtain ⟨k, h, head, still, -, below⟩ := steps.standard.exists_headNormal normal
  exact .intro head still below

end GeneCalculus.Term
