import GeneCalculus.Proofs.Reduction.Head
import GeneCalculus.Proofs.Sharing.Memory

/-!
Normalization on trees. `NormalForm` tells what a run within a budget does, with the normal forms
that it remembers; the same tree always has the same outcome, wherever it stands and whatever is
shared. `Evaluates` forgets the budget and the memory, for runs that lacked no step.
-/

namespace GeneCalculus

/-- A normalization under way on trees: what is left, and the normal forms found so far. -/
structure Course where
  fuel : Fuel
  done : Term → Option Term

/-- The start of a normalization with at most `maxSteps` reductions. -/
def Course.start (maxSteps : Nat) : Course := ⟨⟨maxSteps, false⟩, fun _ => none⟩

/-- Remembers a normal form, unless steps were lacking. -/
def Course.finish (s : Course) (t r : Term) : Course :=
  if s.fuel.exhausted then s else ⟨s.fuel, Term.remember s.done t r⟩

theorem Course.finish_fuel (s : Course) (t r : Term) : (s.finish t r).fuel = s.fuel := by
  unfold finish
  split <;> rfl

/-- What is left where a step was lacking is not remembered. -/
theorem Course.finish_of_exhausted {s : Course} (lacked : s.fuel.exhausted = true) (t r : Term) :
    s.finish t r = s := by
  rw [finish, if_pos lacked]

/-- What holds of all that is remembered and of what is made holds of all that is remembered then. -/
theorem Course.finish_memory {P : Term → Term → Prop} {s : Course} {t r : Term}
    (memory : ∀ u v, s.done u = some v → P u v) (made : P t r) (u v : Term)
    (found : (s.finish t r).done u = some v) : P u v := by
  unfold finish Term.remember at found
  split at found
  · exact memory u v found
  · simp only at found
    split at found
    · rename_i same
      cases found
      exact same ▸ made
    · exact memory u v found

namespace Term

/-- The function that gives back its argument is the identity. -/
def collapse : Term → Term
  | lam (var 0) => ident
  | t => t

/-- Normalization within a budget, from what is remembered. What is built is related by `Q` to what
it is built in place of. -/
inductive NormalForm (Q : Term → Term → Prop) : Term → Course → Term → Course → Prop
  | known {t r : Term} {s : Course} : s.done t = some r → NormalForm Q t s r s
  | build {t h h' : Term} {s s' : Course} {fuel : Fuel} : s.done t = none →
      WeakHead Q t s.fuel h fuel → Traverse (NormalForm Q) h ⟨fuel, s.done⟩ h' s' →
      Q h' h'.collapse → NormalForm Q t s h'.collapse (s'.finish t h'.collapse)

variable {Q Q' : Term → Term → Prop}

@[elab_as_elim, induction_eliminator]
theorem NormalForm.induct
    {motive : ∀ {t : Term} {s : Course} {r : Term} {s' : Course}, t.NormalForm Q s r s' → Prop}
    (known : ∀ {t r : Term} {s : Course} (found : s.done t = some r), motive (.known found))
    (build : ∀ {t h h' : Term} {s s' : Course} {fuel : Fuel} (fresh : s.done t = none)
      (head : t.WeakHead Q s.fuel h fuel)
      (parts : h.Traverse (NormalForm Q) ⟨fuel, s.done⟩ h' s') (made : Q h' h'.collapse)
      (_ : h.Traverse (fun a s b s' => ∃ run : a.NormalForm Q s b s', motive run)
        ⟨fuel, s.done⟩ h' s'), motive (.build fresh head parts made))
    {t : Term} {s : Course} {r : Term} {s' : Course} (run : t.NormalForm Q s r s') : motive run :=
  NormalForm.rec
    (motive_1 := fun _ _ _ _ run => motive run)
    (motive_2 := fun t s t' s' _ =>
      t.Traverse (fun a s b s' => ∃ run : a.NormalForm Q s b s', motive run) s t' s')
    known (fun fresh head parts made ih => build fresh head parts made ih)
    (fun k s => .var k s) (fun a s => .atom a s)
    (fun a iha => .lam ⟨a, iha⟩) (fun a iha => .neg ⟨a, iha⟩)
    (fun form _ _ _ _ _ _ _ a b iha ihb => .binary form ⟨a, iha⟩ ⟨b, ihb⟩)
    (fun form _ _ _ _ _ _ _ _ _ _ a b c iha ihb ihc => .ternary form ⟨a, iha⟩ ⟨b, ihb⟩ ⟨c, ihc⟩)
    (fun a b c d iha ihb ihc ihd => .focus ⟨a, iha⟩ ⟨b, ihb⟩ ⟨c, ihc⟩ ⟨d, ihd⟩) run

/-- Normalization that leaves the memory as it is, because a step was lacking. -/
theorem NormalForm.build_exhausted {t h h' r : Term} {s s' : Course} {fuel : Fuel}
    (lacked : s'.fuel.exhausted = true) (fresh : s.done t = none) (head : t.WeakHead Q s.fuel h fuel)
    (parts : h.Traverse (NormalForm Q) ⟨fuel, s.done⟩ h' s') (same : h'.collapse = r)
    (made : Q h' r) : t.NormalForm Q s r s' := by
  subst same
  have run := NormalForm.build fresh head parts made
  rwa [Course.finish_of_exhausted lacked] at run

theorem NormalForm.mono {t r : Term} {s s' : Course} (sub : ∀ a b, Q a b → Q' a b)
    (h : t.NormalForm Q s r s') : t.NormalForm Q' s r s' := by
  induction h with
  | known found => exact .known found
  | build fresh head _ made ih =>
    exact .build fresh (head.mono sub) (ih.mono fun _ _ _ _ step => step.2) (sub _ _ made)

theorem NormalForm.deterministic {t u v : Term} {s s₁ s₂ : Course} (h : t.NormalForm Q s u s₁)
    (k : t.NormalForm Q' s v s₂) : u = v ∧ s₁ = s₂ := by
  induction h generalizing v s₂ with
  | known found =>
    cases k with
    | known found' => exact ⟨Option.some.inj (found.symm.trans found'), rfl⟩
    | build fresh => cases fresh.symm.trans found
  | build fresh head _ _ parts =>
    cases k with
    | known found => cases fresh.symm.trans found
    | build _ head' parts' =>
      obtain ⟨rfl, rfl⟩ := head.deterministic head'
      obtain ⟨rfl, rfl⟩ := Traverse.deterministic
        (parts.mono fun _ _ _ _ step _ _ other => step.2 other) parts'
      exact ⟨rfl, rfl⟩

end Term

end GeneCalculus
