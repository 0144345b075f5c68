import GeneCalculus.Proofs.Rewrite.Stability

/-!
Saturation on trees. One pass reaches what all passes reach, so the cap on passes decides neither
the result nor what is counted, unless it allows no pass at all.
-/

namespace GeneCalculus

/-- What rewriting came to, on trees. -/
structure Settled where
  result : Term
  passes : Nat
  fixpoint : Bool
  applied : Tally

namespace Term

variable {laws : List Law} {cap cap' passes passes' : Nat} {t r : Term} {applied : Tally}
  {out out' : Settled}

/-- At most `cap` further passes. -/
inductive Saturates (laws : List Law) : Nat → Term → Nat → Tally → Settled → Prop
  | cap {t : Term} {passes : Nat} {applied : Tally} :
      Saturates laws 0 t passes applied ⟨t, passes, false, applied⟩
  | settled {cap : Nat} {t : Term} {passes : Nat} {applied : Tally} {s : Sweep} :
      t.Pass laws (.start applied) t s →
      Saturates laws (cap + 1) t passes applied ⟨t, passes + 1, true, s.applied⟩
  | changed {cap : Nat} {t r : Term} {passes : Nat} {applied : Tally} {s : Sweep} {out : Settled} :
      t.Pass laws (.start applied) r s → r ≠ t → Saturates laws cap r (passes + 1) s.applied out →
      Saturates laws (cap + 1) t passes applied out

theorem Saturates.deterministic (h : Saturates laws cap t passes applied out)
    (k : Saturates laws cap t passes applied out') : out = out' := by
  induction h with
  | cap => cases k; rfl
  | settled run =>
    cases k with
    | settled run' => rw [(run.deterministic run').2]
    | changed run' moved => exact absurd (run.deterministic run').1.symm moved
  | changed run moved _ ih =>
    cases k with
    | settled run' => exact absurd (run.deterministic run').1 moved
    | changed run' _ rest =>
      obtain ⟨rfl, rfl⟩ := run.deterministic run'
      exact ih rest

/-- Further passes over what is stable change nothing. -/
theorem Saturates.of_stable (h : Saturates laws cap t passes applied out) (stable : t.Stable laws) :
    out.result = t ∧ out.applied = applied := by
  cases h with
  | cap => exact ⟨rfl, rfl⟩
  | settled run => exact ⟨rfl, run.applied_of_stable stable (Sweep.sound_start laws _)⟩
  | changed run moved =>
    have outcome := (run.eq_pass (Sweep.sound_start laws _)).1
    exact absurd (outcome.trans stable.pass_eq) moved

/-- All that a saturation comes to, its first pass comes to. -/
theorem Saturates.first (h : Saturates laws (cap + 1) t passes applied out) :
    out.result = t.pass laws ∧
      ∃ s, t.Pass laws (.start applied) (t.pass laws) s ∧ s.applied = out.applied := by
  cases h with
  | settled run =>
    have outcome := (run.eq_pass (Sweep.sound_start laws _)).1
    exact ⟨outcome, _, outcome ▸ run, rfl⟩
  | changed run moved rest =>
    have outcome := (run.eq_pass (Sweep.sound_start laws _)).1
    subst outcome
    obtain ⟨same, counted⟩ := rest.of_stable (stable_pass laws t)
    exact ⟨same, _, run, counted.symm⟩

/-- The cap on passes does not matter, as long as there is one pass. -/
theorem Saturates.agree (h : Saturates laws (cap + 1) t passes applied out)
    (k : Saturates laws (cap' + 1) t passes' applied out') :
    out.result = out'.result ∧ out.applied = out'.applied := by
  obtain ⟨same, s, run, counted⟩ := h.first
  obtain ⟨same', s', run', counted'⟩ := k.first
  obtain ⟨-, rfl⟩ := run.deterministic run'
  exact ⟨same.trans same'.symm, counted.symm.trans counted'⟩

end Term

namespace Rule

/-- The outcome on names stands for the outcome on trees. -/
structure Reaches (out : Rewritten × Arena) (told : Settled) : Prop where
  result : out.2.Holds out.1.result told.result
  passes : out.1.passes = told.passes
  fixpoint : out.1.fixpoint = told.fixpoint
  applied : out.1.applied = told.applied

theorem saturateFrom_holds (laws : List Law) (cap : Nat) {A : Arena} {i : NodeId} {t : Term}
    (h : A.Holds i t) (passes : Nat) (applied : Tally) :
    A ≤ (saturateFrom (laws.map Law.rule) cap i passes applied A).2 ∧
      ∃ told, t.Saturates laws cap passes applied told ∧
        Reaches (saturateFrom (laws.map Law.rule) cap i passes applied A) told := by
  induction cap generalizing A i t passes applied with
  | zero => exact ⟨A.le_refl, _, .cap, h, rfl, rfl, rfl⟩
  | succ cap ih =>
    obtain ⟨kept, r, c, run, tracks, made⟩ :=
      Rewriting.pass_follows laws i ⟨A, ∅, applied⟩ h (c := .start applied) ⟨.empty A, rfl⟩
    unfold saturateFrom
    generalize Rewriting.pass (laws.map Law.rule) i ⟨A, ∅, applied⟩ = out at *
    obtain ⟨j, B, done, applied'⟩ := out
    have counted : applied' = c.applied := tracks.applied
    subst counted
    have unchanged : j = i ↔ r = t := made.eq_iff (h.mono kept)
    simp only
    split
    · rename_i same
      cases unchanged.1 same
      exact ⟨kept, _, .settled run, h.mono kept, rfl, rfl, rfl⟩
    · rename_i moved
      obtain ⟨kept', told, rest, reaches⟩ := ih made (passes + 1) c.applied
      exact ⟨Arena.le_trans kept kept', told, .changed run (mt unchanged.2 moved) rest, reaches⟩

end Rule

/-- What a saturation comes to depends on the tree and the cap alone. -/
theorem Arena.saturate_holds (laws : List Law) {A : Arena} {root : NodeId} {t : Term}
    (h : A.Holds root t) (maxPasses : Nat) :
    A ≤ (A.saturate (laws.map Law.rule) maxPasses root).2 ∧
      ∃ told, t.Saturates laws maxPasses 0 .empty told ∧
        Rule.Reaches (A.saturate (laws.map Law.rule) maxPasses root) told :=
  Rule.saturateFrom_holds laws maxPasses h 0 .empty

end GeneCalculus
