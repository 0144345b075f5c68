import GeneCalculus.Proofs.Canonical.Rounds
import GeneCalculus.Proofs.Sharing.Planting

/-!
Optimization keeps the soul, never raises the cost, and changes nothing when it is repeated. The
last round of a canonicalization that converged starts where it ends, so canonicalization leaves
its own results alone.
-/

namespace GeneCalculus

namespace Stage

variable {limits : Limits} {cap : Nat} {s next out : Stage}

theorem Round.current_of_converged (h : Round limits s next) (converged : next.converged = true) :
    next.current = s.current := by
  cases h with
  | intro run settled => exact (of_decide_eq_true converged).2

theorem Round.enough (h : Round limits s next) (enough : next.exhausted = false) :
    s.exhausted = false := by
  cases h with
  | intro => exact (Bool.or_eq_false_iff.1 enough).1

/-- Rounds that converged end with one that changed nothing. -/
theorem Rounds.last_round (h : Rounds limits cap s out) (before : s.converged = false)
    (converged : out.converged = true) :
    0 < cap ∧ ∃ last : Stage, Round limits last out ∧ last.current = out.current := by
  induction h with
  | cap => cases before.symm.trans converged
  | last round => exact ⟨Nat.succ_pos _, _, round, (round.current_of_converged converged).symm⟩
  | more round goes _ ih =>
    have before' := (Bool.or_eq_false_iff.1 goes).1
    exact ⟨Nat.succ_pos _, (ih before' converged).2⟩

/-- What a round does to the tree does not depend on what was counted before it. -/
theorem Round.congr (h : Round limits s next) (s' : Stage) (current : s'.current = s.current)
    (exhausted : s'.exhausted = s.exhausted) :
    ∃ next', Round limits s' next' ∧ next'.current = next.current ∧
      next'.converged = next.converged ∧ next'.exhausted = next.exhausted := by
  cases h with
  | intro run settled =>
    rw [← current] at run
    refine ⟨_, .intro run settled, rfl, ?_, ?_⟩
    · simp only [advance, current]
    · simp only [advance, exhausted]

/-- Rounds from where rounds converged converge at once. -/
theorem Rounds.again {t : Term} (h : Rounds limits cap (.start t) out)
    (converged : out.converged = true) (enough : out.exhausted = false) :
    ∃ again, Rounds limits cap (.start out.current) again ∧ again.current = out.current ∧
      again.converged = true ∧ again.exhausted = false := by
  obtain ⟨positive, last, round, same⟩ := h.last_round rfl converged
  obtain ⟨again, round', current, converged', enough'⟩ :=
    round.congr (.start out.current) same.symm (round.enough enough).symm
  rw [converged] at converged'
  refine ⟨again, ?_, current, converged', enough'.trans enough⟩
  obtain ⟨cap, rfl⟩ := Nat.exists_eq_succ_of_ne_zero (Nat.ne_of_gt positive)
  exact .last round' (by rw [stops, converged', Bool.true_or])

theorem bytes_eq (current : next.current = out.current) : next.bytes limits = out.bytes limits := by
  unfold bytes oversized
  rw [current]

theorem soul_eq (current : next.current = out.current) (converged : next.converged = out.converged)
    (exhausted : next.exhausted = out.exhausted) : next.soul limits = out.soul limits := by
  unfold soul
  rw [bytes_eq current, converged, exhausted]
  unfold oversized
  rw [current]

theorem converged_of_final (final : (out.soul limits).provisional = false) :
    out.converged = true ∧ out.exhausted = false ∧ out.oversized limits = false := by
  simp only [soul, Bool.or_eq_false_iff, Bool.not_eq_false'] at final
  exact ⟨final.1.2, final.1.1, final.2⟩

end Stage

namespace Arena

variable {A B : Arena} {i j root : NodeId} {t : Term} {limits : Limits}

/-- Equal trees have equal canonical forms, wherever they stand. -/
theorem canonicalize_congr (h : A.Holds i t) (k : B.Holds j t) (limits : Limits) :
    ∃ stage, Canonical.Tells limits (A.canonicalize limits i).2 (A.canonicalize limits i).1 t stage ∧
      Canonical.Tells limits (B.canonicalize limits j).2 (B.canonicalize limits j).1 t stage := by
  obtain ⟨-, stage, run, tells⟩ := canonicalize_holds h limits
  obtain ⟨-, stage', run', tells'⟩ := canonicalize_holds k limits
  cases run.deterministic run'
  exact ⟨stage, tells, tells'⟩

/-- A canonical form that is final is its own canonical form. -/
theorem canonicalize_root (known : root < A.size)
    (final : (A.canonicalize limits root).1.soul.provisional = false) :
    let first := A.canonicalize limits root
    let again := (first.2.canonicalize limits first.1.root).1
    again.root = first.1.root ∧ again.soul = first.1.soul ∧ again.bytes = first.1.bytes ∧
      again.initialCost = first.1.finalCost ∧ again.finalCost = first.1.finalCost := by
  obtain ⟨-, stage, run, tells⟩ := canonicalize_holds (holds_term known) limits
  obtain ⟨converged, enough, -⟩ := Stage.converged_of_final (tells.soul ▸ final)
  obtain ⟨again, run', current, converged', enough'⟩ := run.again converged enough
  obtain ⟨keep, stage', run'', tells'⟩ := canonicalize_holds tells.root limits
  cases run'.deterministic run''
  have soul : again.soul limits = stage.soul limits :=
    Stage.soul_eq current (converged'.trans converged.symm) (enough'.trans enough.symm)
  refine ⟨tells'.root.inj (current ▸ tells.root.mono keep), ?_, ?_, ?_, ?_⟩
  · rw [tells'.soul, soul, tells.soul]
  · rw [tells'.bytes, Stage.bytes_eq current, tells.bytes]
  · rw [tells'.initialCost, tells.finalCost]
  · rw [tells'.finalCost, current, tells.finalCost]

/-- When the canonical form is kept back. -/
def keepsInput (c : Canonical) : Bool := c.soul.provisional || c.initialCost < c.finalCost

theorem optimize_of_keeps (keeps : keepsInput (A.canonicalize limits root).1 = true) :
    ∃ passes, A.optimize limits root = (⟨root, (A.canonicalize limits root).1.initialCost,
      (A.canonicalize limits root).1.initialCost, passes, false, .empty⟩,
      (A.canonicalize limits root).2) :=
  ⟨_, if_pos keeps⟩

theorem optimize_of_takes (takes : keepsInput (A.canonicalize limits root).1 = false) :
    ∃ passes applied, A.optimize limits root = (⟨(A.canonicalize limits root).1.root,
      (A.canonicalize limits root).1.initialCost, (A.canonicalize limits root).1.finalCost, passes,
      true, applied⟩, (A.canonicalize limits root).2) :=
  ⟨_, _, if_neg (Bool.eq_false_iff.1 takes)⟩

/-- Optimization gives an expression with the soul and the bytes of the one it is given, tells both
costs and never raises the cost, and optimizing its result gives that result again. -/
theorem optimize_preserves (A : Arena) (limits : Limits) (root : NodeId) (known : root < A.size) :
    let out := A.optimize limits root
    let before := (A.canonicalize limits root).1
    let after := (out.2.canonicalize limits out.1.result).1
    let again := (out.2.optimize limits out.1.result).1
    out.1.result < out.2.size ∧
      (after.soul = before.soul ∧ after.bytes = before.bytes) ∧
      (out.1.initialCost = A.cost root ∧ out.1.finalCost = out.2.cost out.1.result ∧
        out.1.finalCost ≤ out.1.initialCost) ∧
      again.result = out.1.result ∧ again.finalCost = out.1.finalCost := by
  have h := holds_term known
  obtain ⟨keep, stage, -, tells⟩ := canonicalize_holds h limits
  have initial := tells.initialCost.trans h.cost.symm
  cases decided : keepsInput (A.canonicalize limits root).1 with
  | true =>
    obtain ⟨passes, eq⟩ := optimize_of_keeps decided
    obtain ⟨stage, told, told'⟩ := canonicalize_congr h (h.mono keep) limits
    have decided' : keepsInput
        ((A.canonicalize limits root).2.canonicalize limits root).1 = true := by
      rw [← decided, keepsInput, keepsInput, told.soul, told.initialCost, told.finalCost,
        told'.soul, told'.initialCost, told'.finalCost]
    obtain ⟨passes', eq'⟩ := optimize_of_keeps decided'
    simp only [eq, eq']
    refine ⟨(h.mono keep).1, ⟨?_, ?_⟩, ⟨initial, ?_, Nat.le_refl _⟩, trivial, ?_⟩
    · rw [told'.soul, told.soul]
    · rw [told'.bytes, told.bytes]
    · rw [initial, h.cost, (h.mono keep).cost]
    · rw [told'.initialCost, told.initialCost]
  | false =>
    obtain ⟨passes, applied, eq⟩ := optimize_of_takes decided
    obtain ⟨final, cheaper⟩ := Bool.or_eq_false_iff.1 decided
    obtain ⟨unmoved, soul, bytes, initial', same⟩ := canonicalize_root known final
    have decided' : keepsInput ((A.canonicalize limits root).2.canonicalize limits
        (A.canonicalize limits root).1.root).1 = false := by
      simp [keepsInput, soul, final, initial', same]
    obtain ⟨passes', applied', eq'⟩ := optimize_of_takes decided'
    simp only [eq, eq']
    refine ⟨tells.root.1, ⟨soul, bytes⟩, ⟨initial, ?_, ?_⟩, unmoved, same⟩
    · rw [tells.finalCost, tells.root.cost]
    · exact Nat.not_lt.1 (of_decide_eq_false cheaper)

/-- Two maps of a list, in an arena of their own and with room for one round only. -/
theorem optimize_preserves_two_maps :
    let t : Term := .map (.atom (.prim "f")) (.map (.atom (.prim "g")) (.atom (.prim "xs")))
    let A := (empty.plant t).2
    let root := (empty.plant t).1
    let limits : Limits := { Limits.standard with maxRounds := 1 }
    let out := A.optimize limits root
    let before := (A.canonicalize limits root).1
    let after := (out.2.canonicalize limits out.1.result).1
    let again := (out.2.optimize limits out.1.result).1
    root < A.size ∧ out.1.result < out.2.size ∧
      (after.soul = before.soul ∧ after.bytes = before.bytes) ∧
      (out.1.initialCost = A.cost root ∧ out.1.finalCost = out.2.cost out.1.result ∧
        out.1.finalCost ≤ out.1.initialCost) ∧
      again.result = out.1.result ∧ again.finalCost = out.1.finalCost := by
  intro t A root limits
  have known : root < A.size := (empty.plant_holds (by decide)).1
  exact ⟨known, optimize_preserves A limits root known⟩

end Arena

end GeneCalculus
