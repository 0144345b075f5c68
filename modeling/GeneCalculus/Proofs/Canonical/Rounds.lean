import GeneCalculus.Canonical.Form
import GeneCalculus.Proofs.Canonical.Encoding
import GeneCalculus.Proofs.Reduction.Realization
import GeneCalculus.Proofs.Rewrite.Saturation

/-!
Canonicalization on trees. Rounds on names are rounds on trees, with the same flags and counts, so
what a canonicalization comes to depends on the tree and the limits and on nothing else of the
arena.
-/

namespace GeneCalculus

/-- The rounds so far, on trees. -/
structure Stage where
  current : Term
  exhausted : Bool
  converged : Bool
  rounds : Nat
  passes : Nat
  stepsUsed : Nat
  applied : Tally

namespace Stage

variable {limits : Limits} {cap : Nat} {s next next' out out' : Stage}

def start (t : Term) : Stage := ⟨t, false, false, 0, 0, 0, .empty⟩

/-- The stage after a normalization to `r` and a saturation of it. -/
def advance (s : Stage) (r : Term) (lacked : Bool) (steps : Nat) (told : Settled) : Stage where
  current := told.result
  exhausted := s.exhausted || lacked
  converged := r = s.current ∧ told.result = s.current
  rounds := s.rounds + 1
  passes := s.passes + told.passes
  stepsUsed := s.stepsUsed + steps
  applied := s.applied.merge told.applied

def stops (s : Stage) : Bool := s.converged || s.exhausted

inductive Round (limits : Limits) (s : Stage) : Stage → Prop
  | intro {r : Term} {c : Course} {told : Settled} :
      s.current.NormalForm Term.Any (.start limits.normalizeBudget) r c →
      r.Saturates Law.all limits.maxPasses 0 .empty told →
      Round limits s (s.advance r c.fuel.exhausted (limits.normalizeBudget - c.fuel.left) told)

/-- At most `cap` further rounds. -/
inductive Rounds (limits : Limits) : Nat → Stage → Stage → Prop
  | cap {s : Stage} : Rounds limits 0 s s
  | last {cap : Nat} {s next : Stage} : Round limits s next → next.stops = true →
      Rounds limits (cap + 1) s next
  | more {cap : Nat} {s next out : Stage} : Round limits s next → next.stops = false →
      Rounds limits cap next out → Rounds limits (cap + 1) s out

theorem Round.deterministic (h : Round limits s next) (k : Round limits s next') : next = next' := by
  obtain ⟨run, settled⟩ := h
  obtain ⟨run', settled'⟩ := k
  obtain ⟨rfl, rfl⟩ := run.deterministic run'
  rw [settled.deterministic settled']

theorem Rounds.deterministic (h : Rounds limits cap s out) (k : Rounds limits cap s out') :
    out = out' := by
  induction h with
  | cap => cases k; rfl
  | last round stops =>
    cases k with
    | last round' => exact round.deterministic round'
    | more round' goes =>
      cases round.deterministic round'
      cases stops.symm.trans goes
  | more round goes _ ih =>
    cases k with
    | last round' stops =>
      cases round.deterministic round'
      cases goes.symm.trans stops
    | more round' _ rest =>
      cases round.deterministic round'
      exact ih rest

def oversized (limits : Limits) (s : Stage) : Bool :=
  decide (limits.maxTreeSize < min s.current.size capacity)

def bytes (limits : Limits) (s : Stage) : List UInt8 :=
  if s.oversized limits then s.current.encodeShared else s.current.encode

def soul (limits : Limits) (s : Stage) : Soul :=
  ⟨.ofCanonical (s.bytes limits), s.exhausted || !s.converged || s.oversized limits⟩

end Stage

namespace Canonical

/-- The rounds on names stand where those on trees stand. -/
structure Rounds.Tracks (A : Arena) (s : Rounds) (told : Stage) : Prop where
  current : A.Holds s.current told.current
  exhausted : s.exhausted = told.exhausted
  converged : s.converged = told.converged
  rounds : s.rounds = told.rounds
  passes : s.passes = told.passes
  stepsUsed : s.stepsUsed = told.stepsUsed
  applied : s.applied = told.applied

variable {limits : Limits} {s : Rounds} {A : Arena} {told : Stage}

/-- One round on names. -/
def Rounds.next (limits : Limits) (s : Rounds) (A : Arena) : Rounds × Arena :=
  match A.normalize s.current limits.normalizeBudget with
  | (normalized, A) =>
    match A.saturate Rule.table limits.maxPasses normalized.result with
    | (rewritten, A) =>
      ({ current := rewritten.result
         exhausted := s.exhausted || normalized.exhausted
         converged := normalized.result = s.current ∧ rewritten.result = s.current
         rounds := s.rounds + 1
         passes := s.passes + rewritten.passes
         stepsUsed := s.stepsUsed + normalized.stepsUsed
         applied := s.applied.merge rewritten.applied }, A)

theorem roundsFrom_succ (limits : Limits) (cap : Nat) (s : Rounds) (A : Arena) :
    roundsFrom limits (cap + 1) s A =
      if (s.next limits A).1.converged || (s.next limits A).1.exhausted then s.next limits A
      else roundsFrom limits cap (s.next limits A).1 (s.next limits A).2 := rfl

theorem Rounds.next_holds (limits : Limits) (tracks : s.Tracks A told) :
    A ≤ (s.next limits A).2 ∧ ∃ next, told.Round limits next ∧
      (s.next limits A).1.Tracks (s.next limits A).2 next := by
  obtain ⟨keep, r, c, run, made, steps, lacked⟩ :=
    Arena.normalize_holds tracks.current limits.normalizeBudget
  obtain ⟨keep', settled, saturates, reaches⟩ :=
    Arena.saturate_holds Law.all made limits.maxPasses
  rw [Law.map_rule_all] at keep' reaches
  have first := (made.mono keep').eq_iff (tracks.current.mono (Arena.le_trans keep keep'))
  have second := reaches.result.eq_iff (tracks.current.mono (Arena.le_trans keep keep'))
  refine ⟨Arena.le_trans keep keep', _, ⟨run.mono fun _ _ _ => trivial, saturates⟩, reaches.result, ?_, ?_, ?_, ?_, ?_, ?_⟩
  · exact congr (congrArg or tracks.exhausted) lacked
  · exact decide_eq_decide.2 (and_congr first second)
  · exact congrArg (· + 1) tracks.rounds
  · exact congr (congrArg Nat.add tracks.passes) reaches.passes
  · exact congr (congrArg Nat.add tracks.stepsUsed) steps
  · exact congr (congrArg Tally.merge tracks.applied) reaches.applied

theorem roundsFrom_holds (limits : Limits) (cap : Nat) (tracks : s.Tracks A told) :
    A ≤ (roundsFrom limits cap s A).2 ∧ ∃ out, told.Rounds limits cap out ∧
      (roundsFrom limits cap s A).1.Tracks (roundsFrom limits cap s A).2 out := by
  induction cap generalizing s A told with
  | zero => exact ⟨A.le_refl, _, .cap, tracks⟩
  | succ cap ih =>
    obtain ⟨keep, next, round, tracks'⟩ := Rounds.next_holds limits tracks
    have stops : ((s.next limits A).1.converged || (s.next limits A).1.exhausted) = next.stops := by
      rw [tracks'.converged, tracks'.exhausted, Stage.stops]
    rw [roundsFrom_succ, stops]
    cases eq : next.stops with
    | true => exact ⟨keep, next, .last round eq, tracks'⟩
    | false =>
      obtain ⟨keep', out, rest, tracks''⟩ := ih tracks'
      exact ⟨Arena.le_trans keep keep', out, .more round eq rest, tracks''⟩

end Canonical

/-- The canonical form of `t`, reached at `stage`. -/
structure Canonical.Tells (limits : Limits) (A : Arena) (c : Canonical) (t : Term) (stage : Stage) :
    Prop where
  root : A.Holds c.root stage.current
  soul : c.soul = stage.soul limits
  bytes : c.bytes = stage.bytes limits
  initialCost : c.initialCost = t.price
  finalCost : c.finalCost = stage.current.price
  rounds : c.rounds = stage.rounds
  passes : c.passes = stage.passes
  stepsUsed : c.stepsUsed = stage.stepsUsed
  applied : c.applied = stage.applied

/-- What a canonicalization comes to depends on the tree and the limits alone. -/
theorem Arena.canonicalize_holds {A : Arena} {root : NodeId} {t : Term} (h : A.Holds root t)
    (limits : Limits) :
    A ≤ (A.canonicalize limits root).2 ∧
      ∃ stage, (Stage.start t).Rounds limits limits.maxRounds stage ∧
        Canonical.Tells limits (A.canonicalize limits root).2 (A.canonicalize limits root).1 t
          stage := by
  have first : Canonical.Rounds.Tracks A ⟨root, false, false, 0, 0, 0, .empty⟩ (.start t) :=
    ⟨h, rfl, rfl, rfl, rfl, rfl, rfl⟩
  obtain ⟨keep, stage, run, tracks⟩ := Canonical.roundsFrom_holds limits limits.maxRounds first
  refine ⟨keep, stage, run, ?_⟩
  unfold canonicalize
  generalize Canonical.roundsFrom limits limits.maxRounds ⟨root, false, false, 0, 0, 0, .empty⟩ A =
    out at *
  obtain ⟨s, B⟩ := out
  have oversized : decide (limits.maxTreeSize < B.treeSize s.current) = stage.oversized limits := by
    rw [tracks.current.treeSize, Stage.oversized]
  have bytes : (if limits.maxTreeSize < B.treeSize s.current then B.encodeShared s.current
      else B.encode s.current) = stage.bytes limits := by
    rw [Arena.encodeShared_holds tracks.current, Arena.encode_holds tracks.current, Stage.bytes,
      ← oversized]
    simp
  exact {
    root := tracks.current
    soul := by
      show Soul.mk (.ofCanonical _) (_ || !_ || decide _) = _
      rw [bytes, tracks.exhausted, tracks.converged, oversized, Stage.soul]
    bytes := bytes
    initialCost := h.cost
    finalCost := tracks.current.cost
    rounds := tracks.rounds
    passes := tracks.passes
    stepsUsed := tracks.stepsUsed
    applied := tracks.applied }

end GeneCalculus
