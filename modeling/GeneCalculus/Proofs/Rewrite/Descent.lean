import GeneCalculus.Proofs.Rewrite.Additive
import GeneCalculus.Proofs.Rewrite.Application

/-!
Rewriting by any rules comes to an end. A rule is used where it makes a part cheaper, and what is
cheaper when costs are told up to `capacity` is cheaper without that bound too. So a pass gives back
the name that it was given or a tree of strictly lower cost, however often a part is shared, and
there are no more passes than the cost allows.
-/

namespace GeneCalculus

namespace Term

/-- `u` costs no more than `t`, and less if it is another tree. -/
structure Descends (t u : Term) : Prop where
  cost_le : u.cost ≤ t.cost
  eq_of_cost : u.cost = t.cost → u = t

variable {t u v : Term}

theorem Descends.refl (t : Term) : t.Descends t := ⟨Nat.le_refl _, fun _ => rfl⟩

theorem descends_of_lt (less : u.cost < t.cost) : t.Descends u :=
  ⟨Nat.le_of_lt less, fun same => absurd same (Nat.ne_of_lt less)⟩

theorem Descends.cost_lt (h : t.Descends u) (moved : u ≠ t) : u.cost < t.cost :=
  Nat.lt_of_le_of_ne h.cost_le (mt h.eq_of_cost moved)

theorem Descends.trans (h : t.Descends u) (k : u.Descends v) : t.Descends v where
  cost_le := Nat.le_trans k.cost_le h.cost_le
  eq_of_cost same := by
    have first := h.cost_le
    have second := k.cost_le
    exact (k.eq_of_cost (by omega)).trans (h.eq_of_cost (by omega))

/-- A tree descends with its children. -/
theorem Alike.descends (h : Alike Descends t u) : t.Descends u := by
  cases h with
  | var | atom => exact .refl _
  | lam a | neg a =>
    have first := a.cost_le
    constructor <;> simp only [cost]
    · omega
    · intro same
      rw [a.eq_of_cost (by omega)]
  | binary form a b =>
    have first := a.cost_le
    have second := b.cost_le
    constructor <;> simp only [cost]
    · omega
    · intro same
      rw [a.eq_of_cost (by omega), b.eq_of_cost (by omega)]
  | ternary form a b c =>
    have first := a.cost_le
    have second := b.cost_le
    have third := c.cost_le
    constructor <;> simp only [cost]
    · omega
    · intro same
      rw [a.eq_of_cost (by omega), b.eq_of_cost (by omega), c.eq_of_cost (by omega)]
  | focus a b c d =>
    have first := a.cost_le
    have second := b.cost_le
    have third := c.cost_le
    have fourth := d.cost_le
    constructor <;> simp only [cost]
    · omega
    · intro same
      rw [a.eq_of_cost (by omega), b.eq_of_cost (by omega), c.eq_of_cost (by omega),
        d.eq_of_cost (by omega)]

end Term

variable {rules : List Rule} {A : Arena} {i : NodeId} {t : Term}

/-- The outcome stands for a tree that `t` descends to, in an arena that lost nothing. -/
structure Arena.Lowers (A : Arena) (t : Term) (out : NodeId × Arena) : Prop where
  kept : A ≤ out.2
  told : ∃ u, out.2.Holds out.1 u ∧ t.Descends u

section Rules

variable (additive : ∀ rule ∈ rules, rule.Additive)

include additive

theorem Rule.improve_lowers (h : A.Holds i t) :
    A.Lowers t ((improve i rules A).1.1, (improve i rules A).2) := by
  induction rules generalizing A with
  | nil => exact ⟨A.le_refl, t, h, .refl t⟩
  | cons rule rules ih =>
    have rest := fun rule mem => additive rule (List.mem_cons_of_mem _ mem)
    rw [improve]
    split
    · exact ih rest h
    · rename_i j B built
      obtain ⟨keep, made⟩ := additive rule List.mem_cons_self A i h.1 _ built
      have old := h.mono keep
      have new := Arena.holds_term made
      split
      · rename_i cheaper
        rw [new.cost, old.cost] at cheaper
        exact ⟨keep, _, new, Term.descends_of_lt (Term.price_lt_iff.1 cheaper).1⟩
      · obtain ⟨keep', told⟩ := ih rest old
        exact ⟨Arena.le_trans keep keep', told⟩

namespace Rewriting

/-- Each name that is done stands for a tree that descends to its outcome. -/
def Descending (s : Rewriting) : Prop :=
  ∀ i j : NodeId, s.done[i]? = some j → ∃ t, s.arena.Holds i t ∧ s.arena.Lowers t (j, s.arena)

omit additive in
theorem descending_insert {B : Arena} {done : Std.HashMap NodeId NodeId} {applied applied' : Tally}
    {j : NodeId} (descending : Descending ⟨A, done, applied⟩) (h : A.Holds i t)
    (lowers : A.Lowers t (j, B)) : Descending ⟨B, done.insert i j, applied'⟩ := by
  intro k l found
  rw [Std.HashMap.getElem?_insert] at found
  split at found
  · rename_i same
    cases found
    obtain rfl := beq_iff_eq.1 same
    exact ⟨t, h.mono lowers.kept, B.le_refl, lowers.told⟩
  · obtain ⟨u, hk, -, v, hl, descends⟩ := descending k l found
    exact ⟨u, hk.mono lowers.kept, B.le_refl, v, hl.mono lowers.kept, descends⟩

theorem settle_lowers {s : Rewriting} {n : Node NodeId} {t' : Term} (descending : s.Descending)
    (h : s.arena.Holds i t) (shown : s.arena.Shows n t') (descends : t.Descends t') :
    s.arena.Lowers t ((s.settle rules i n).1, (s.settle rules i n).2.arena) ∧
      (s.settle rules i n).2.Descending := by
  obtain ⟨A, done, applied⟩ := s
  obtain ⟨keep, u, made, further⟩ := Rule.improve_lowers additive shown.intern
  have lowers : A.Lowers t ((Rule.improve (A.intern n).1 rules (A.intern n).2).1.1,
      (Rule.improve (A.intern n).1 rules (A.intern n).2).2) :=
    ⟨Arena.le_trans (A.le_intern n) keep, u, made, descends.trans further⟩
  simp only [settle]
  generalize Rule.improve (A.intern n).1 rules (A.intern n).2 = out at *
  obtain ⟨⟨k, _ | name⟩, B⟩ := out
  · exact ⟨lowers, descending_insert descending h lowers⟩
  · exact ⟨lowers, descending_insert descending h lowers⟩

/-- A pass makes a tree descend, and all that it remembers. -/
theorem pass_lowers (i : NodeId) (s : Rewriting) {t : Term} (h : s.arena.Holds i t)
    (descending : s.Descending) :
    s.arena.Lowers t ((pass rules i s).1, (pass rules i s).2.arena) ∧
      (pass rules i s).2.Descending := by
  induction i using Nat.strongRecOn generalizing s t with
  | ind i ih =>
    unfold pass
    split
    · rename_i j found
      obtain ⟨u, hi, lowers⟩ := descending i j found
      exact ⟨h.unique hi ▸ lowers, descending⟩
    · split
      · exact ⟨⟨Arena.le_refl _, t, h, .refl t⟩, descending⟩
      · rename_i n found
        obtain ⟨keep, t', _, parts, descending', shown⟩ :=
          (h.shows found).traverse Rewriting.arena (fun s (_ : Unit) => s.Descending)
            (R := fun _ x _ y _ => x.Descends y) (fun _ _ _ _ _ _ _ told => told) (u := ()) descending
            (f := fun c mem s' => pass rules c s') fun c mem s' x _ _ descending' hc => by
              obtain ⟨⟨keep, y, hy, descends⟩, descending''⟩ :=
                ih c (s.arena.lt_of_mem_children found mem) s' hc descending'
              exact ⟨keep, y, (), descends, descending'', hy⟩
        obtain ⟨⟨keep', told⟩, settled⟩ :=
          settle_lowers additive descending' (h.mono keep) shown parts.alike.descends
        exact ⟨⟨Arena.le_trans keep keep', told⟩, settled⟩

/-- A pass that remembers nothing yet. -/
theorem first_pass_lowers (h : A.Holds i t) (applied : Tally) :
    A.Lowers t ((pass rules i ⟨A, ∅, applied⟩).1, (pass rules i ⟨A, ∅, applied⟩).2.arena) :=
  (pass_lowers additive i ⟨A, ∅, applied⟩ h fun _ _ found => by simp at found).1

end Rewriting

/-- What rewriting came to, against the tree it started with and the cap it had. -/
structure Rule.Ends (t : Term) (cap passes : Nat) (out : Rewritten) (u : Term) : Prop where
  descends : t.Descends u
  fixpoint : t.cost < cap → out.fixpoint = true
  passes_le : out.passes + u.cost ≤ passes + t.cost + 1
  capped : out.fixpoint = false → out.passes = passes + cap

/-- By induction on the cap: a pass that changes the tree leaves less cost for the other passes. -/
theorem Rule.saturateFrom_ends (cap : Nat) (h : A.Holds i t) (passes : Nat) (applied : Tally) :
    ∃ u, (saturateFrom rules cap i passes applied A).2.Holds
        (saturateFrom rules cap i passes applied A).1.result u ∧
      Rule.Ends t cap passes (saturateFrom rules cap i passes applied A).1 u := by
  induction cap generalizing A i t passes applied with
  | zero =>
    exact ⟨t, h, .refl t, fun less => absurd less (Nat.not_lt_zero _), Nat.le_succ _, fun _ => rfl⟩
  | succ cap ih =>
    obtain ⟨keep, r, made, descends⟩ := Rewriting.first_pass_lowers additive h applied
    unfold saturateFrom
    generalize Rewriting.pass rules i ⟨A, ∅, applied⟩ = out at *
    obtain ⟨j, B, done, applied'⟩ := out
    have old := h.mono keep
    simp only at made old ⊢
    split
    · refine ⟨t, old, .refl t, fun _ => rfl, ?_, fun stopped => by cases stopped⟩
      simp only
      omega
    · rename_i moved
      have less := descends.cost_lt fun same => moved (made.inj (same ▸ old))
      obtain ⟨u, hu, further, fixpoint, passes_le, capped⟩ := ih made (passes + 1) applied'
      refine ⟨u, hu, descends.trans further, ?_, ?_, ?_⟩
      · intro enough
        exact fixpoint (by omega)
      · omega
      · intro stopped
        rw [capped stopped]
        omega

/-- Rewriting never raises the cost, and each pass that changes something lowers it. So it comes to
a fixpoint if it may take more passes than the cost is high, and nothing but the cap stops it
before. -/
theorem Arena.saturate_ends (A : Arena) (root : NodeId) (known : root < A.size) :
    (∀ (B : Arena) (i : NodeId) (applied : Tally), i < B.size →
      let out := Rewriting.pass rules i ⟨B, ∅, applied⟩
      out.1 = i ∨ (out.2.arena.term out.1).cost < (B.term i).cost) ∧
      ∀ maxPasses : Nat,
        let out := A.saturate rules maxPasses root
        let u := out.2.term out.1.result
        out.2.cost out.1.result ≤ A.cost root ∧ u.cost ≤ (A.term root).cost ∧
          ((A.term root).cost < maxPasses → out.1.fixpoint = true) ∧
          out.1.passes ≤ (A.term root).cost + 1 ∧
          (out.1.fixpoint = false → out.1.passes = maxPasses) := by
  constructor
  · intro B i applied here out
    have h := holds_term here
    obtain ⟨keep, u, made, descends⟩ := Rewriting.first_pass_lowers additive h applied
    by_cases same : out.1 = i
    · exact .inl same
    · refine .inr ?_
      rw [made.2]
      exact descends.cost_lt fun eq => same (made.inj (eq ▸ h.mono keep))
  · intro maxPasses out u
    have h := holds_term known
    obtain ⟨v, held, ends⟩ : ∃ v, out.2.Holds out.1.result v ∧
        Rule.Ends (A.term root) maxPasses 0 out.1 v :=
      Rule.saturateFrom_ends additive maxPasses h 0 .empty
    have result : u = v := held.2
    have passes := ends.passes_le
    refine ⟨?_, result ▸ ends.descends.cost_le, ends.fixpoint, ?_, ?_⟩
    · rw [held.cost, h.cost]
      have lower := ends.descends.cost_le
      simp only [Term.price]
      omega
    · omega
    · intro stopped
      exact (ends.capped stopped).trans (Nat.zero_add maxPasses)

end Rules

/-- A rule that the table does not have: two negations cancel each other. -/
def Rule.cancelNegations : Rule where
  name := "cancel_negations"
  pattern := "Not(Not(x))"
  replacement := "x"
  hint := -2
  build A i :=
    match A.node? i with
    | some (.neg y) =>
      match A.node? y with
      | some (.neg x) => some (x, A)
      | _ => none
    | _ => none

theorem Rule.cancelNegations_additive : cancelNegations.Additive := by
  intro A i known out built
  simp only [cancelNegations] at built
  split at built
  · rename_i y found
    split at built
    · rename_i x found'
      cases built
      refine ⟨A.le_refl, ?_⟩
      have below : x < y := A.lt_of_mem_children found' (by simp [Node.children])
      exact Nat.lt_trans below (Arena.lt_size found')
    · cases built
  · cases built

/-- Two negations of an operand cost three, so with four passes rewriting comes to a fixpoint. -/
theorem Arena.saturate_ends_negations :
    let rules := [Rule.cancelNegations]
    let t : Term := .neg (.neg (.atom (.prim "p")))
    let A := (empty.plant t).2
    let root := (empty.plant t).1
    let out := A.saturate rules 4 root
    ((∀ rule ∈ rules, rule.Additive) ∧ root < A.size ∧ (A.term root).cost = 3) ∧
      (∀ (B : Arena) (i : NodeId) (applied : Tally), i < B.size →
        let out := Rewriting.pass rules i ⟨B, ∅, applied⟩
        out.1 = i ∨ (out.2.arena.term out.1).cost < (B.term i).cost) ∧
      out.2.cost out.1.result ≤ A.cost root ∧ (out.2.term out.1.result).cost ≤ 3 ∧
      out.1.fixpoint = true ∧ out.1.passes ≤ 4 ∧
      (A.saturate rules 0 root).1.fixpoint = false ∧ (A.saturate rules 0 root).1.passes = 0 := by
  intro rules t A root out
  have held : A.Holds root t := empty.plant_holds (by decide)
  have additive : ∀ rule ∈ rules, rule.Additive := by
    intro rule mem
    rw [List.mem_singleton.1 mem]
    exact Rule.cancelNegations_additive
  have cost : (A.term root).cost = 3 := by
    rw [held.2]
    rfl
  obtain ⟨passes, ends⟩ := saturate_ends additive A root held.1
  obtain ⟨price, lower, fixpoint, few, -⟩ := ends 4
  have none := (ends 0).2.2.2.2 rfl
  rw [cost] at lower fixpoint few
  exact ⟨⟨additive, held.1, cost⟩, passes, price, lower, fixpoint (by decide), few, rfl, none⟩

end GeneCalculus
