import GeneCalculus.Proofs.Canonical.Optimization
import GeneCalculus.Proofs.Canonical.Settling

/-!
A soul that is final does not depend on the limits. A round that lacks no step reaches the same
tree under all budgets and all caps on passes but zero, so two runs that both converge go through
the same trees; and a run within wider limits lacks nothing that one within narrower limits had.
-/

namespace GeneCalculus

/-- Every limit of one is within that of the other. -/
structure Limits.Within (c d : Limits) : Prop where
  normalizeBudget : c.normalizeBudget ≤ d.normalizeBudget
  maxRounds : c.maxRounds ≤ d.maxRounds
  maxPasses : c.maxPasses ≤ d.maxPasses
  maxTreeSize : c.maxTreeSize ≤ d.maxTreeSize

namespace Stage

variable {c d : Limits} {cap cap' : Nat} {s s' next next' out out' : Stage}

/-- The stages differ at most in the number of passes. -/
structure Same (s s' : Stage) : Prop where
  current : s.current = s'.current
  exhausted : s.exhausted = s'.exhausted
  converged : s.converged = s'.converged
  rounds : s.rounds = s'.rounds
  stepsUsed : s.stepsUsed = s'.stepsUsed
  applied : s.applied = s'.applied

theorem Same.refl (s : Stage) : s.Same s := ⟨rfl, rfl, rfl, rfl, rfl, rfl⟩

/-- Rounds that lack no step agree. One under a wider budget lacks none. -/
theorem Round.agree (h : Round c s next) (k : Round d s' next') (same : s.Same s')
    (passes : c.maxPasses = d.maxPasses ∨ 0 < c.maxPasses ∧ 0 < d.maxPasses)
    (enough : next.exhausted = false)
    (other : next'.exhausted = false ∨ c.normalizeBudget ≤ d.normalizeBudget) : next.Same next' := by
  obtain @⟨r, e, told, run, settled⟩ := h
  obtain @⟨r', e', told', run', settled'⟩ := k
  obtain ⟨before, spare⟩ := Bool.or_eq_false_iff.1 enough
  rw [← same.current] at run'
  have spare' : e'.fuel.exhausted = false := by
    rcases other with other | wider
    · exact (Bool.or_eq_false_iff.1 other).2
    · obtain ⟨e'', run'', spare'', -⟩ :=
        run.with_budget spare (Nat.le_trans (Nat.sub_le _ _) wider)
      cases (run'.deterministic run'').2
      exact spare''
  obtain ⟨rfl, steps⟩ := run.agree spare run' spare'
  have settles : told.result = told'.result ∧ told.applied = told'.applied := by
    rcases passes with alike | ⟨positive, positive'⟩
    · rw [← alike] at settled'
      cases settled.deterministic settled'
      exact ⟨rfl, rfl⟩
    · obtain ⟨p, hp⟩ := Nat.exists_eq_add_of_lt positive
      obtain ⟨p', hp'⟩ := Nat.exists_eq_add_of_lt positive'
      rw [hp] at settled
      rw [hp'] at settled'
      exact settled.agree settled'
  obtain ⟨result, applied⟩ := settles
  exact {
    current := result
    exhausted := by simp only [advance, same.exhausted, spare, spare']
    converged := by simp only [advance, same.current, result]
    rounds := by simp only [advance, same.rounds]
    stepsUsed := by simp only [advance, same.stepsUsed, steps]
    applied := by simp only [advance, same.applied, applied] }

/-- A run that converges without lacking a step agrees with every other such run, and with every run
within wider limits. -/
theorem Rounds.agree (h : Rounds c cap s out) (k : Rounds d cap' s' out') (same : s.Same s')
    (passes : c.maxPasses = d.maxPasses ∨ 0 < c.maxPasses ∧ 0 < d.maxPasses)
    (before : s.converged = false)
    (converged : out.converged = true) (enough : out.exhausted = false)
    (other : out'.converged = true ∧ out'.exhausted = false ∨
      c.normalizeBudget ≤ d.normalizeBudget ∧ cap ≤ cap') : out.Same out' := by
  induction h generalizing cap' s' with
  | cap => cases before.symm.trans converged
  | last round =>
    cases k with
    | cap =>
      rcases other with ⟨converged', -⟩ | ⟨-, le⟩
      · cases before.symm.trans (same.converged.trans converged')
      · exact absurd le (Nat.not_succ_le_zero _)
    | last round' =>
      exact round.agree round' same passes enough (other.imp And.right And.left)
    | more round' goes =>
      obtain ⟨open', enough'⟩ := Bool.or_eq_false_iff.1 goes
      have agree := round.agree round' same passes enough (.inl enough')
      cases open'.symm.trans (agree.converged.symm.trans converged)
  | more round goes _ ih =>
    obtain ⟨before', enough'⟩ := Bool.or_eq_false_iff.1 goes
    cases k with
    | cap =>
      rcases other with ⟨converged', -⟩ | ⟨-, le⟩
      · cases before.symm.trans (same.converged.trans converged')
      · exact absurd le (Nat.not_succ_le_zero _)
    | last round' stops =>
      have agree := round.agree round' same passes enough' (other.imp And.right And.left)
      rw [Stage.stops, ← agree.converged, ← agree.exhausted, before', enough'] at stops
      cases stops
    | more round' goes' rest' =>
      have enough'' := (Bool.or_eq_false_iff.1 goes').2
      have agree := round.agree round' same passes enough' (.inl enough'')
      exact ih rest' agree before' converged enough
        (other.imp_right fun wider => ⟨wider.1, Nat.le_of_succ_le_succ wider.2⟩)

/-- Rounds from the same tree reach the same tree, whatever was counted before them. -/
theorem Rounds.congr (h : Rounds c cap s out) (s' : Stage) (current : s'.current = s.current)
    (exhausted : s'.exhausted = s.exhausted) (converged : s'.converged = s.converged) :
    ∃ out', Rounds c cap s' out' ∧ out'.current = out.current ∧
      out'.converged = out.converged ∧ out'.exhausted = out.exhausted := by
  induction h generalizing s' with
  | cap => exact ⟨s', .cap, current, converged, exhausted⟩
  | last round stops =>
    obtain ⟨next', round', current', converged', exhausted'⟩ := round.congr s' current exhausted
    rw [Stage.stops, ← converged', ← exhausted'] at stops
    exact ⟨next', .last round' stops, current', converged', exhausted'⟩
  | more round goes _ ih =>
    obtain ⟨next', round', current', converged', exhausted'⟩ := round.congr s' current exhausted
    rw [Stage.stops, ← converged', ← exhausted'] at goes
    obtain ⟨out', rest, reached⟩ := ih next' current' exhausted' converged'
    exact ⟨out', .more round' goes rest, reached⟩

/-- Rounds that converge without lacking a step may as well start after their first. -/
theorem Rounds.skip {t : Term} (h : Rounds c cap (.start t) out) (converged : out.converged = true)
    (enough : out.exhausted = false) :
    ∃ next, Round c (.start t) next ∧ next.exhausted = false ∧ ∃ cap' out',
      Rounds c cap' (.start next.current) out' ∧ out'.current = out.current ∧
      out'.converged = true ∧ out'.exhausted = false := by
  have whole := h
  cases h with
  | cap => cases converged
  | last round =>
    obtain ⟨again, rest, reached⟩ := whole.again converged enough
    exact ⟨_, round, enough, _, again, rest, reached⟩
  | more round goes rest =>
    obtain ⟨before, enough'⟩ := Bool.or_eq_false_iff.1 goes
    obtain ⟨out', rest', current, converged', exhausted⟩ :=
      rest.congr (.start _) rfl enough'.symm before.symm
    exact ⟨_, round, enough', _, out', rest', current, converged'.trans converged,
      exhausted.trans enough⟩

/-- A round that lacks no step evaluates its tree. -/
theorem Round.evaluates (h : Round c s next) (enough : next.exhausted = false) :
    ∃ n, s.current.Evaluates Term.Any n := by
  obtain ⟨form, -⟩ := h
  exact ⟨_, form.evaluates_start (Bool.or_eq_false_iff.1 enough).2⟩

/-- Rounds over trees with the same normal form reach the same tree. -/
theorem Round.current_congr {n : Term} (h : Round c s next) (k : Round c s' next')
    (run : s.current.Evaluates Term.Any n) (run' : s'.current.Evaluates Term.Any n)
    (enough : next.exhausted = false) (enough' : next'.exhausted = false) :
    next.current = next'.current := by
  obtain ⟨form, settled⟩ := h
  obtain ⟨form', settled'⟩ := k
  cases (form.evaluates_start (Bool.or_eq_false_iff.1 enough).2).deterministic run
  cases (form'.evaluates_start (Bool.or_eq_false_iff.1 enough').2).deterministic run'
  exact congrArg Settled.result (settled.deterministic settled')

/-- A round that lacks no step is a pass over the normal form. -/
theorem Round.current_eq {n : Term} (h : Round c s next) (run : s.current.Evaluates Term.Any n)
    (passes : 0 < c.maxPasses) (enough : next.exhausted = false) : next.current = n.pass Law.all := by
  obtain @⟨r, e, told, run', settled⟩ := h
  cases (run'.evaluates_start (Bool.or_eq_false_iff.1 enough).2).deterministic run
  obtain ⟨p, hp⟩ := Nat.exists_eq_add_of_lt passes
  rw [hp] at settled
  exact settled.first.1

/-- Runs whose first rounds meet reach the same tree. -/
theorem Rounds.meet {t t' : Term} (h : Rounds c cap (.start t) out)
    (k : Rounds c cap' (.start t') out')
    (final : out.converged = true ∧ out.exhausted = false)
    (final' : out'.converged = true ∧ out'.exhausted = false)
    (meet : ∀ next next', Round c (.start t) next → Round c (.start t') next' →
      next.exhausted = false → next'.exhausted = false → next.current = next'.current) :
    out.current = out'.current := by
  obtain ⟨next, round, enough, _, last, rest, current, done⟩ := h.skip final.1 final.2
  obtain ⟨next', round', enough', _, last', rest', current', done'⟩ := k.skip final'.1 final'.2
  rw [meet next next' round round' enough enough'] at rest
  have same := rest.agree rest' (.refl _) (.inl rfl) rfl done.1 done.2 (.inl done')
  rw [← current, ← current', same.current]

/-- Runs reach the same tree if passes over the normal forms give trees that evaluate to the same. -/
theorem Rounds.meet_later {t t' n n' : Term} (h : Rounds c cap (.start t) out)
    (k : Rounds c cap' (.start t') out') (final : out.converged = true ∧ out.exhausted = false)
    (final' : out'.converged = true ∧ out'.exhausted = false) (run : t.Evaluates Term.Any n)
    (run' : t'.Evaluates Term.Any n') (passes : 0 < c.maxPasses)
    (meets : ∀ r, (n'.pass Law.all).Evaluates Term.Any r → (n.pass Law.all).Evaluates Term.Any r) :
    out.current = out'.current := by
  obtain ⟨first, round, enough, _, last, rest, current, done⟩ := h.skip final.1 final.2
  obtain ⟨first', round', enough', _, last', rest', current', done'⟩ := k.skip final'.1 final'.2
  have start := round.current_eq run passes enough
  have start' := round'.current_eq run' passes enough'
  rw [start] at rest
  rw [start'] at rest'
  rw [← current, ← current']
  refine rest.meet rest' done done' fun next next' round round' enough enough' => ?_
  obtain ⟨r, later⟩ := round'.evaluates enough'
  exact round.current_congr round' (meets r later) later enough enough'

theorem Same.oversized (same : s.Same s') (limits : Limits) :
    s.oversized limits = s'.oversized limits := by
  unfold Stage.oversized
  rw [same.current]

theorem bytes_of_not_oversized (small : out.oversized c = false) : out.bytes c = out.current.encode := by
  rw [bytes, small]
  rfl

theorem oversized_of_within (le : c.maxTreeSize ≤ d.maxTreeSize) (small : out.oversized c = false) :
    out.oversized d = false := by
  simp only [oversized, decide_eq_false_iff_not, Nat.not_lt] at *
  exact Nat.le_trans small le

end Stage

namespace Arena

/-- A soul that is final is the same under all limits under which it is, with all that was learned
on the way to it, and it is final under wider limits. -/
theorem final_soul_independent (A : Arena) (c d : Limits) (root : NodeId) (known : root < A.size)
    (passes : 0 < c.maxPasses) (passes' : 0 < d.maxPasses)
    (final : (A.canonicalize c root).1.soul.provisional = false) :
    let first := A.canonicalize c root
    let second := A.canonicalize d root
    (second.1.soul.provisional = false →
      first.2.term first.1.root = second.2.term second.1.root ∧ first.1.bytes = second.1.bytes ∧
        first.1.soul = second.1.soul ∧ first.1.rounds = second.1.rounds ∧
        first.1.stepsUsed = second.1.stepsUsed ∧ first.1.applied = second.1.applied) ∧
      (c.Within d → second.1.soul.provisional = false) := by
  have h := holds_term known
  obtain ⟨-, stage, run, tells⟩ := canonicalize_holds h c
  obtain ⟨-, stage', run', tells'⟩ := canonicalize_holds h d
  obtain ⟨converged, enough, small⟩ := Stage.converged_of_final (tells.soul ▸ final)
  simp only
  constructor
  · intro final'
    obtain ⟨converged', enough', small'⟩ := Stage.converged_of_final (tells'.soul ▸ final')
    have same := run.agree run' (.refl _) (.inr ⟨passes, passes'⟩) rfl converged enough
      (.inl ⟨converged', enough'⟩)
    have bytes : stage.bytes c = stage'.bytes d := by
      rw [Stage.bytes_of_not_oversized small, Stage.bytes_of_not_oversized small', same.current]
    refine ⟨?_, ?_, ?_, ?_, ?_, ?_⟩
    · rw [tells.root.2, tells'.root.2, same.current]
    · rw [tells.bytes, tells'.bytes, bytes]
    · rw [tells.soul, tells'.soul, Stage.soul, Stage.soul, bytes, same.exhausted, same.converged,
        small, small']
    · rw [tells.rounds, tells'.rounds, same.rounds]
    · rw [tells.stepsUsed, tells'.stepsUsed, same.stepsUsed]
    · rw [tells.applied, tells'.applied, same.applied]
  · intro within
    have same := run.agree run' (.refl _) (.inr ⟨passes, passes'⟩) rfl converged enough
      (.inr ⟨within.normalizeBudget, within.maxRounds⟩)
    have small' := Stage.oversized_of_within within.maxTreeSize small
    rw [same.exhausted] at enough
    rw [same.converged] at converged
    rw [same.oversized] at small'
    rw [tells'.soul]
    simp only [Stage.soul, enough, converged, small', Bool.not_true, Bool.or_false]

/-- Two maps of a list are joined within two rounds of one pass each, as they are under the limits
that are used when none are given. -/
theorem soul_of_two_maps_independent :
    let t : Term := .map (.atom (.prim "f")) (.map (.atom (.prim "g")) (.atom (.prim "xs")))
    let A := (empty.plant t).2
    let root := (empty.plant t).1
    let c : Limits := { normalizeBudget := 0, maxRounds := 2, maxPasses := 1, maxTreeSize := 5 }
    let d : Limits := .standard
    let first := A.canonicalize c root
    let second := A.canonicalize d root
    (root < A.size ∧ 0 < c.maxPasses ∧ 0 < d.maxPasses ∧ first.1.soul.provisional = false ∧
        second.1.soul.provisional = false ∧ c.Within d) ∧
      (second.1.soul.provisional = false →
        first.2.term first.1.root = second.2.term second.1.root ∧ first.1.bytes = second.1.bytes ∧
          first.1.soul = second.1.soul ∧ first.1.rounds = second.1.rounds ∧
          first.1.stepsUsed = second.1.stepsUsed ∧ first.1.applied = second.1.applied) ∧
        (c.Within d → second.1.soul.provisional = false) := by
  intro t A root c d
  have held : A.Holds root t := empty.plant_holds (by decide)
  have final := congrArg Soul.provisional (canonicalize_normal held c (by decide) (by decide)
    (by decide) (by decide) (by decide)).1
  have final' := congrArg Soul.provisional (canonicalize_normal held d (by decide) (by decide)
    (by decide) (by decide) (by decide)).1
  have within : c.Within d := by constructor <;> decide
  exact ⟨⟨held.1, by decide, by decide, final, final', within⟩,
    final_soul_independent A c d root held.1 (by decide) (by decide) final⟩

/-- Expressions whose runs reach the same tree have the same soul, if it is final for both. -/
theorem soul_of_reached {A B : Arena} {i j : NodeId} {t t' : Term} {c : Limits}
    (hi : A.Holds i t) (hj : B.Holds j t')
    (reach : ∀ out out', Stage.Rounds c c.maxRounds (.start t) out →
      Stage.Rounds c c.maxRounds (.start t') out' →
      out.converged = true ∧ out.exhausted = false → out'.converged = true ∧ out'.exhausted = false →
      out.current = out'.current)
    (final : (A.canonicalize c i).1.soul.provisional = false)
    (final' : (B.canonicalize c j).1.soul.provisional = false) :
    (A.canonicalize c i).1.soul = (B.canonicalize c j).1.soul ∧
      (A.canonicalize c i).1.bytes = (B.canonicalize c j).1.bytes := by
  obtain ⟨-, stage, rounds, tells⟩ := canonicalize_holds hi c
  obtain ⟨-, stage', rounds', tells'⟩ := canonicalize_holds hj c
  obtain ⟨converged, enough, -⟩ := Stage.converged_of_final (tells.soul ▸ final)
  obtain ⟨converged', enough', -⟩ := Stage.converged_of_final (tells'.soul ▸ final')
  have reached := reach _ _ rounds rounds' ⟨converged, enough⟩ ⟨converged', enough'⟩
  rw [tells.soul, tells'.soul, tells.bytes, tells'.bytes]
  exact ⟨Stage.soul_eq reached (converged.trans converged'.symm) (enough.trans enough'.symm),
    Stage.bytes_eq reached⟩

/-- Expressions have the same soul, if it is final for both, if passes over their normal forms give
trees that evaluate to the same. -/
theorem soul_of_pass {A B : Arena} {i j : NodeId} {t t' n n' : Term} {c : Limits}
    (hi : A.Holds i t) (hj : B.Holds j t') (run : t.Evaluates Term.Any n) (run' : t'.Evaluates Term.Any n')
    (meets : ∀ r, (n'.pass Law.all).Evaluates Term.Any r → (n.pass Law.all).Evaluates Term.Any r)
    (passes : 0 < c.maxPasses) (final : (A.canonicalize c i).1.soul.provisional = false)
    (final' : (B.canonicalize c j).1.soul.provisional = false) :
    (A.canonicalize c i).1.soul = (B.canonicalize c j).1.soul ∧
      (A.canonicalize c i).1.bytes = (B.canonicalize c j).1.bytes :=
  soul_of_reached hi hj (fun _ _ rounds rounds' done done' =>
    rounds.meet_later rounds' done done' run run' passes meets) final final'

end Arena

end GeneCalculus
