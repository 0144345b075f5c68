import GeneCalculus.Proofs.Calculus.Nesting
import GeneCalculus.Proofs.Calculus.Parallel
import GeneCalculus.Proofs.Calculus.Partial
import GeneCalculus.Proofs.Canonical.Independence
import GeneCalculus.Proofs.Reduction.Growth
import GeneCalculus.Proofs.Sharing.Closure

/-!
The order of reductions does not matter. A closed expression and whatever it reduces to, in any
order and at any places, have the same normal form, so normalization finds the same one for both,
and they have the same soul.
-/

namespace GeneCalculus

open Term (Steps Evaluates)

namespace Term

variable {t u n n' : Term}

/-- An expression and its reducts evaluate to one tree. -/
theorem Evaluates.unique_of_steps (run : t.Evaluates Steps n) (steps : t.Steps u)
    (run' : u.Evaluates Steps n') : n = n' :=
  run.steps.normal_unique (steps.trans run'.steps) run.normal run'.normal

end Term

namespace Stage

variable {limits : Limits} {s next : Stage}

/-- A round lacks steps if its normalization does. -/
theorem Round.normalize_enough {A : Arena} {i : NodeId} (round : Round limits s next)
    (h : A.Holds i s.current) (enough : next.exhausted = false) :
    (A.normalize i limits.normalizeBudget).1.exhausted = false := by
  obtain ⟨form, -⟩ := round
  obtain ⟨-, r, c, form', -, -, lacked⟩ := Arena.normalize_holds h limits.normalizeBudget
  cases (form.deterministic form').2
  exact lacked.trans (Bool.or_eq_false_iff.1 enough).2

end Stage

namespace Arena

variable {A B : Arena} {i j : NodeId} {m m' : Nat} {t u n n' : Term} {limits : Limits}

/-- The tree that a normalization reaches. -/
def reached (A : Arena) (i : NodeId) (m : Nat) : Term :=
  (A.normalize i m).2.term (A.normalize i m).1.result

/-- The normalization lacked no step, and its arena has no more nodes than there are words. -/
structure Completes (A : Arena) (i : NodeId) (m : Nat) : Prop where
  enough : (A.normalize i m).1.exhausted = false
  small : (A.normalize i m).2.size ≤ Term.words

/-- A normalization that completes goes by the steps of the calculus. -/
theorem Completes.evaluates (run : A.Completes i m) (h : A.Holds i t) (closed : t.Closed) :
    t.Evaluates Steps (A.reached i m) := by
  obtain ⟨keep, r, c, form, made, -, lacked⟩ := normalize_holds h m
  have whole := form.to_steps_of_closed run.small ⟨i, h.mono keep⟩ closed
  have steps := whole.evaluates_start (lacked.symm.trans run.enough)
  rwa [← made.2] at steps

/-- A normalization that lacks steps leaves a reduct, if one that lacks none is by the steps of the
calculus. -/
theorem steps_reached (h : A.Holds i t) (whole : t.Evaluates Steps n) (m : Nat) :
    t.Steps (A.reached i m) := by
  obtain ⟨-, r, c, form, made, -⟩ := normalize_holds h m
  have steps := ((form.of_evaluates (.inr ⟨n, whole⟩)).1.reduces fun _ _ found => by cases found).1
  rwa [← made.2] at steps

/-- Normalizations that complete reach one tree from a closed tree and from its reducts. -/
theorem Completes.reached_eq (run : A.Completes i m) (run' : B.Completes j m') (hi : A.Holds i t)
    (hj : B.Holds j u) (closed : t.Closed) (steps : t.Steps u) : A.reached i m = B.reached j m' :=
  (run.evaluates hi closed).unique_of_steps steps (run'.evaluates hj (steps.closed closed))

/-- A closed expression and what it reduces to have the same normal form, which is also reached from
where a normalization stopped for want of steps, and they have the same soul. In a canonicalization
it is enough that the arena is small after the first normalization. -/
theorem reduction_order_irrelevant (A B : Arena) (i j : NodeId)
    (closed : A.validateClosed i = .ok ()) (known : j < B.size)
    (steps : (A.term i).Steps (B.term j)) :
    (∀ m m', A.Completes i m → B.Completes j m' → A.reached i m = B.reached j m') ∧
      (∀ m m₀ m', A.Completes i m →
        (A.normalize i m₀).2.Completes (A.normalize i m₀).1.result m' →
        A.reached i m = (A.normalize i m₀).2.reached (A.normalize i m₀).1.result m') ∧
      ∀ limits : Limits, (A.normalize i limits.normalizeBudget).2.size ≤ Term.words →
        (B.normalize j limits.normalizeBudget).2.size ≤ Term.words →
        (A.canonicalize limits i).1.soul.provisional = false →
        (B.canonicalize limits j).1.soul.provisional = false →
        (A.canonicalize limits i).1.soul = (B.canonicalize limits j).1.soul ∧
          (A.canonicalize limits i).1.bytes = (B.canonicalize limits j).1.bytes := by
  obtain ⟨known', closed⟩ := validateClosed_iff.1 closed
  have hi := holds_term known'
  have hj := holds_term known
  refine ⟨?_, ?_, ?_⟩
  · intro m m' run run'
    exact run.reached_eq run' hi hj closed steps
  · intro m m₀ m' run rest
    obtain ⟨-, r, c, -, made, -⟩ := normalize_holds hi m₀
    exact run.reached_eq rest hi (holds_term made.1) closed
      (steps_reached hi (run.evaluates hi closed) m₀)
  · intro limits small small' final final'
    refine soul_of_reached hi hj (fun _ _ rounds rounds' done done' => ?_) final final'
    refine rounds.meet rounds' done done' fun next next' round round' enough enough' => ?_
    have run : A.Completes i _ := ⟨round.normalize_enough hi enough, small⟩
    have run' : B.Completes j _ := ⟨round'.normalize_enough hj enough', small'⟩
    have whole := run.evaluates hi closed
    have whole' := run'.evaluates hj (steps.closed closed)
    rw [← run.reached_eq run' hi hj closed steps] at whole'
    exact round.current_congr round' (whole.mono fun _ _ _ => trivial)
      (whole'.mono fun _ _ _ => trivial) enough enough'

/-- A normalization completes if all that is built in it is among a few trees. -/
theorem Completes.of_few {l : List Term} {r : Term} {c : Course} (down : Term.Downward (· ∈ l))
    (few : l.length ≤ Term.words) (h : A.Holds i t) (only : A.Only (· ∈ l))
    (run : t.NormalForm (fun _ => (· ∈ l)) (.start m) r c) (enough : c.fuel.exhausted = false) :
    A.Completes i m := by
  obtain ⟨-, r', c', run', -, -, lacked⟩ := normalize_holds h m
  cases (run.deterministic run').2
  exact ⟨lacked.trans enough, Nat.le_trans (size_normalize_le down h only run) few⟩

/-- The function that gives back its argument is applied by substitution, or it is the identity
first and applied then. A normalization without steps leaves the second. -/
theorem identity_order_irrelevant :
    let x : Term := .atom (.prim "x")
    let t : Term := .app (.lam (.var 0)) x
    let u : Term := .app .ident x
    let B := (empty.plant u).2
    let A := (B.plant t).2
    let i := (B.plant t).1
    let j := (empty.plant u).1
    let part := A.normalize i 0
    let limits : Limits := ⟨1, 2, 1, 1⟩
    (A.validateClosed i = .ok () ∧ j < A.size ∧ (A.term i).Steps (A.term j) ∧ A.Completes i 1 ∧
        A.Completes j 1 ∧ part.1.exhausted = true ∧ part.2.Completes part.1.result 1 ∧
        (A.canonicalize limits i).1.soul.provisional = false ∧
        (A.canonicalize limits j).1.soul.provisional = false) ∧
      A.reached i 1 = A.reached j 1 ∧
      A.reached i 1 = part.2.reached part.1.result 1 ∧
      (A.canonicalize limits i).1.soul = (A.canonicalize limits j).1.soul ∧
      (A.canonicalize limits i).1.bytes = (A.canonicalize limits j).1.bytes := by
  intro x t u B A i j part limits
  -- all that is ever built
  let l : List Term := [x, .ident, u, .var 0, .lam (.var 0), t]
  have down : Term.Downward (· ∈ l) := by decide
  have first := empty.plant_makes (t := u) (by decide)
  have second := B.plant_makes (t := t) (by decide)
  have hi : A.Holds i t := second.made
  have hj : A.Holds j u := first.made.mono second.kept
  have only : A.Only (· ∈ l) := second.only _ down (first.only_parts down (by decide)) (by decide)
  have run : ∃ c, t.NormalForm (fun _ => (· ∈ l)) (.start 1) x c ∧ c.fuel.exhausted = false :=
    ⟨_, .build rfl (.step rfl (.stay rfl) rfl (by decide) (.stay rfl)) (.atom _ _) (by decide), rfl⟩
  have run' : ∃ c, u.NormalForm (fun _ => (· ∈ l)) (.start 1) x c ∧ c.fuel.exhausted = false :=
    ⟨_, .build rfl (.step rfl (.stay rfl) rfl (by decide) (.stay rfl)) (.atom _ _) (by decide), rfl⟩
  let s : Course := ⟨⟨0, true⟩, fun _ => none⟩
  have hole : (Term.var 0).NormalForm (fun _ => (· ∈ l)) s (.var 0) s :=
    .build_exhausted rfl rfl (.stay rfl) (.var 0 s) rfl (by decide)
  have function : (Term.lam (.var 0)).NormalForm (fun _ => (· ∈ l)) s .ident s :=
    .build_exhausted rfl rfl (.stay rfl) (.lam hole) rfl (by decide)
  have argument : x.NormalForm (fun _ => (· ∈ l)) s x s :=
    .build_exhausted rfl rfl (.stay rfl) (.atom _ s) rfl (by decide)
  have partway : t.NormalForm (fun _ => (· ∈ l)) (.start 0) u s :=
    .build_exhausted rfl rfl (.starved rfl (.stay rfl) rfl (by decide))
      (.binary .app function argument) rfl (by decide)
  obtain ⟨c, run, enough⟩ := run
  obtain ⟨c', run', enough'⟩ := run'
  have closed : A.validateClosed i = .ok () := hi.validateClosed rfl
  have steps : (A.term i).Steps (A.term j) := by
    rw [hi.2, hj.2]
    exact .single (.binary₁ .app x (.here .identity))
  have completes : A.Completes i 1 := .of_few down (by decide) hi only run enough
  have completes' : A.Completes j 1 := .of_few down (by decide) hj only run' enough'
  obtain ⟨-, r, c₁, left, made, -, lacked⟩ := normalize_holds hi 0
  obtain ⟨rfl, rfl⟩ := partway.deterministic left
  have rest : part.2.Completes part.1.result 1 :=
    .of_few down (by decide) made (normalize_only down hi only partway) run' enough'
  have final := congrArg Soul.provisional (canonicalize_of_normalForm hi limits
    (run.mono fun _ _ _ => trivial) enough (by decide) (by decide) (by decide) (by decide)).1
  have final' := congrArg Soul.provisional (canonicalize_of_normalForm hj limits
    (run'.mono fun _ _ _ => trivial) enough' (by decide) (by decide) (by decide) (by decide)).1
  obtain ⟨same, resumed, soul⟩ := reduction_order_irrelevant A A i j closed hj.1 steps
  exact ⟨⟨closed, hj.1, steps, completes, completes', lacked, rest, final, final'⟩,
    same 1 1 completes completes', resumed 1 0 1 completes rest,
    soul limits completes.small completes'.small final final'⟩

end Arena

end GeneCalculus
