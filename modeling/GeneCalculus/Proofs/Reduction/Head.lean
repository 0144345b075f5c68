import GeneCalculus.Proofs.Sharing.Rebinding
import GeneCalculus.Reduction.Normal

/-!
Reduction at the head, on trees. `WeakHead` tells what a run within a budget does; it is a relation
between trees, so it holds of a run wherever its tree stands in an arena, and it allows one outcome.
-/

namespace GeneCalculus

/-- What is left of a budget, and whether a step was lacking. -/
structure Fuel where
  left : Nat
  exhausted : Bool
  deriving DecidableEq

namespace Term

/-- The part that decides what becomes of the tree. -/
def head? : Term → Option Term
  | app f _ => some f
  | choose cond _ _ => some cond
  | neg x => some x
  | _ => none

/-- The tree with another deciding part. -/
def withHead (t : Term) (h : Term) : Term :=
  match t with
  | app _ x => app h x
  | choose _ yes no => choose h yes no
  | neg _ => neg h
  | t => t

/-- What a redex at the root becomes, in words of 32 bits. -/
def contract? : Term → Option Term
  | app (lam body) x => some (body.instantiate x)
  | app ident x => some x
  | app (compose f g) x => some (app f (app g x))
  | choose (bool b) yes no => some (if b then yes else no)
  | neg (bool b) => some (bool !b)
  | _ => none

/-- No demand on what is built. -/
abbrev Any (_ _ : Term) : Prop := True

/-- Reduction of a tree until its head decides nothing more. What is built is related by `Q` to what
it is built in place of. -/
inductive WeakHead (Q : Term → Term → Prop) : Term → Fuel → Term → Fuel → Prop
  | stay {t : Term} {s : Fuel} : t.head? = none → WeakHead Q t s t s
  | step {t c d u v : Term} {s s' : Fuel} {left : Nat} {exhausted : Bool} : t.head? = some c →
      WeakHead Q c s d ⟨left + 1, exhausted⟩ → (t.withHead d).contract? = some u →
      Q (t.withHead d) u → WeakHead Q u ⟨left, exhausted⟩ v s' → WeakHead Q t s v s'
  | starved {t c d u : Term} {s : Fuel} {exhausted : Bool} : t.head? = some c →
      WeakHead Q c s d ⟨0, exhausted⟩ → (t.withHead d).contract? = some u →
      Q t (t.withHead d) → WeakHead Q t s (t.withHead d) ⟨0, true⟩
  | stuck {t c d : Term} {s s' : Fuel} : t.head? = some c → WeakHead Q c s d s' →
      (t.withHead d).contract? = none → Q t (t.withHead d) → WeakHead Q t s (t.withHead d) s'

variable {Q Q' : Term → Term → Prop}

theorem WeakHead.mono {t u : Term} {s s' : Fuel} (sub : ∀ a b, Q a b → Q' a b)
    (h : t.WeakHead Q s u s') : t.WeakHead Q' s u s' := by
  induction h with
  | stay none => exact .stay none
  | step head _ next made _ ih₁ ih₂ => exact .step head ih₁ next (sub _ _ made) ih₂
  | starved head _ next made ih => exact .starved head ih next (sub _ _ made)
  | stuck head _ next made ih => exact .stuck head ih next (sub _ _ made)

theorem WeakHead.deterministic {t u v : Term} {s s₁ s₂ : Fuel} (h : t.WeakHead Q s u s₁)
    (k : t.WeakHead Q' s v s₂) : u = v ∧ s₁ = s₂ := by
  induction h generalizing v s₂ with
  | stay none =>
    cases k with
    | stay => exact ⟨rfl, rfl⟩
    | step some | starved some | stuck some => simp [none] at some
  | step head _ next _ _ ih₁ ih₂ =>
    cases k with
    | stay none => simp [head] at none
    | step head' run next' _ run' =>
      cases head.symm.trans head'
      obtain ⟨rfl, same⟩ := ih₁ run
      cases same
      cases next.symm.trans next'
      exact ih₂ run'
    | starved head' run next' =>
      cases head.symm.trans head'
      cases (ih₁ run).2
    | stuck head' run next' =>
      cases head.symm.trans head'
      obtain ⟨rfl, -⟩ := ih₁ run
      simp [next] at next'
  | starved head _ next _ ih =>
    cases k with
    | stay none => simp [head] at none
    | step head' run =>
      cases head.symm.trans head'
      cases (ih run).2
    | starved head' run =>
      cases head.symm.trans head'
      exact ⟨by rw [(ih run).1], rfl⟩
    | stuck head' run next' =>
      cases head.symm.trans head'
      obtain ⟨rfl, -⟩ := ih run
      simp [next] at next'
  | stuck head _ next _ ih =>
    cases k with
    | stay none => simp [head] at none
    | step head' run next' | starved head' run next' =>
      cases head.symm.trans head'
      obtain ⟨rfl, -⟩ := ih run
      simp [next] at next'
    | stuck head' run =>
      cases head.symm.trans head'
      obtain ⟨rfl, rfl⟩ := ih run
      exact ⟨rfl, rfl⟩

end Term

namespace Arena

variable {A : Arena} {n : Node NodeId} {c : NodeId} {t x : Term}

theorem Shows.head? (h : A.Shows n t) (head : n.head? = some c) :
    ∃ x, t.head? = some x ∧ A.Holds c x := by
  cases h with
  | var | atom | lam | focus => cases head
  | neg k => cases head; exact ⟨_, rfl, k⟩
  | binary form k => cases form <;> cases head; exact ⟨_, rfl, k⟩
  | ternary form k => cases form <;> cases head; exact ⟨_, rfl, k⟩

theorem Shows.head?_eq_none (h : A.Shows n t) (head : n.head? = none) : t.head? = none := by
  cases h with
  | var | atom | lam | focus => rfl
  | neg => cases head
  | binary form => cases form <;> first | rfl | cases head
  | ternary form => cases form <;> first | rfl | cases head

theorem Shows.withHead (h : A.Shows n t) (k : A.Holds c x) :
    A.Shows (n.withHead c) (t.withHead x) := by
  cases h with
  | var k => exact .var k
  | atom a => exact .atom a
  | lam b => exact .lam b
  | neg => exact .neg k
  | focus x y z w => exact .focus x y z w
  | binary form a b =>
    cases form with
    | app => exact .binary _ k b
    | _ => exact .binary _ a b
  | ternary form a b e =>
    cases form with
    | choose => exact .ternary _ k b e
    | reduce => exact .ternary _ a b e

/-- A node is a redex where its tree is one. -/
theorem Shows.contract? (h : A.Shows n t) :
    (A.redex? n = none ∧ t.contract? = none) ∨ ∃ r u, A.redex? n = some r ∧ t.contract? = some u ∧
      A.Makes (A.contract r) u := by
  cases h with
  | var | atom | lam | focus => exact .inl ⟨rfl, rfl⟩
  | neg k =>
    obtain ⟨m, found, shown⟩ := k.exists_shows
    simp only [redex?, Node.head?, Option.bind_some, found]
    cases shown with
    | atom a =>
      rcases a with (_ | b | _ | _) | _ | _ <;> first | exact .inl ⟨rfl, rfl⟩ | skip
      exact .inr ⟨.flip b, _, rfl, rfl, (Shows.atom _).makes⟩
    | _ => exact .inl ⟨rfl, rfl⟩
  | ternary form k y z =>
    cases form with
    | reduce => exact .inl ⟨rfl, rfl⟩
    | choose =>
      obtain ⟨m, found, shown⟩ := k.exists_shows
      simp only [redex?, Node.head?, Option.bind_some, found]
      cases shown with
      | atom a =>
        rcases a with (_ | b | _ | _) | _ | _ <;> first | exact .inl ⟨rfl, rfl⟩ | skip
        refine .inr ⟨.branch _, _, rfl, rfl, ?_⟩
        cases b with
        | true => exact y.makes
        | false => exact z.makes
      | _ => exact .inl ⟨rfl, rfl⟩
  | binary form k y =>
    cases form with
    | app =>
      obtain ⟨m, found, shown⟩ := k.exists_shows
      simp only [redex?, Node.head?, Option.bind_some, found]
      cases shown with
      | lam b => exact .inr ⟨.beta _ _, _, rfl, rfl, instantiate_makes b y⟩
      | atom a =>
        rcases a with _ | _ | _ <;> first | exact .inl ⟨rfl, rfl⟩ | skip
        exact .inr ⟨.ident _, _, rfl, rfl, y.makes⟩
      | binary inner f g =>
        cases inner with
        | compose =>
          have first := (Shows.binary .app g y).makes
          exact .inr ⟨.compose _ _ _, _, rfl, rfl,
            first.trans (Shows.binary .app (f.mono first.kept) first.made).makes
              (by simp [Term.children])⟩
        | _ => exact .inl ⟨rfl, rfl⟩
      | _ => exact .inl ⟨rfl, rfl⟩
    | _ => exact .inl ⟨rfl, rfl⟩

end Arena

namespace Run

/-- What is left of the budget of a run. -/
def fuel (r : Run) : Fuel := ⟨r.left, r.exhausted⟩

/-- A run does to the name of a tree what `WeakHead` does to the tree, and its arena has every tree
that is built. -/
theorem weakHead_holds (i : NodeId) (r : Run) {t : Term} (h : r.arena.Holds i t) :
    ∃ u, t.WeakHead (fun _ => (r.weakHead i).1.2.arena.Has) r.fuel u (r.weakHead i).1.2.fuel ∧
      (r.weakHead i).1.2.arena.Holds (r.weakHead i).1.1 u := by
  fun_induction weakHead i r generalizing t with
  | case1 i r absent =>
    obtain ⟨n, found, -⟩ := h.exists_shows
    cases absent.symm.trans found
  | case2 i r n node none =>
    exact ⟨t, .stay ((h.shows node).head?_eq_none none), h⟩
  | case3 i r n node c head below d s p run redex found j t' kept left next less ih₁ ih₂ =>
    obtain ⟨x, headed, hx⟩ := (h.shows node).head? head
    obtain ⟨u, reduced, hu⟩ := ih₁ hx
    rw [run] at reduced hu
    have shown := ((h.shows node).mono p.kept).withHead hu
    rcases shown.contract? with ⟨none, -⟩ | ⟨redex', v, found', contracted, makes⟩
    · cases none.symm.trans found
    · cases found.symm.trans found'
      have hv := makes.made
      have later := (weakHead j t').2.kept
      have reduced := reduced.mono fun _ _ => Arena.Has.mono (Arena.le_trans kept later)
      obtain ⟨B, k, e⟩ := t'
      cases next
      obtain ⟨w, reduced', hw⟩ := ih₂ hv
      refine ⟨w, .step headed ?_ contracted ⟨_, hv.mono later⟩ reduced', hw⟩
      simpa only [fuel, left] using reduced
  | case4 i r n node c head below d s p run redex lack found ih =>
    obtain ⟨x, headed, hx⟩ := (h.shows node).head? head
    obtain ⟨u, reduced, hu⟩ := ih hx
    rw [run] at reduced hu
    have shown := ((h.shows node).mono p.kept).withHead hu
    rcases shown.contract? with ⟨none, -⟩ | ⟨_, v, -, contracted, -⟩
    · cases none.symm.trans found
    · refine ⟨_, ?_, shown.intern⟩
      have reduced := reduced.mono fun _ _ => Arena.Has.mono (s.arena.le_intern (n.withHead d))
      simp only [fuel, lack] at reduced
      simpa only [build, fuel, lack] using .starved headed reduced contracted ⟨_, shown.intern⟩
  | case5 i r n node c head below d s p run stays ih =>
    obtain ⟨x, headed, hx⟩ := (h.shows node).head? head
    obtain ⟨u, reduced, hu⟩ := ih hx
    rw [run] at reduced hu
    have shown := ((h.shows node).mono p.kept).withHead hu
    rcases shown.contract? with ⟨-, none⟩ | ⟨_, _, found, -⟩
    · have reduced := reduced.mono fun _ _ => Arena.Has.mono (s.arena.le_intern (n.withHead d))
      exact ⟨_, .stuck headed reduced none ⟨_, shown.intern⟩, shown.intern⟩
    · cases stays.symm.trans found

end Run

end GeneCalculus
