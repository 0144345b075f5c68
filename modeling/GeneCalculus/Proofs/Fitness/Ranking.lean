import Mathlib.Data.Prod.Basic
import Mathlib.Data.String.Basic
import GeneCalculus.Proofs.Double.Order
import GeneCalculus.Proofs.Registry.Crown

/-!
What the champion is the best of. Where the scores of all candidates can be compared, the ranking is
in order, so nothing ranks before its first, and the order in which the candidates came does not
matter.
-/

namespace GeneCalculus.Scored

variable {a b c x best : Scored} {xs ys scored : List Scored}

/-- The order of souls, and of the sources of one soul. -/
abbrev Named (a b : Scored) : Prop :=
  Prod.Lex (· < ·) (· < ·) (a.soul, a.source) (b.soul, b.source)

theorem before_iff :
    a.before b ↔ b.score < a.score ∨ ¬a.score < b.score ∧ Named a b := by
  unfold before
  rw [Named, Prod.lex_def]
  split
  · rename_i higher
    exact ⟨fun _ => .inl higher, fun _ => rfl⟩
  · rename_i notHigher
    rw [or_iff_right notHigher]
    split
    · rename_i lower
      exact ⟨nofun, fun h => absurd lower h.1⟩
    · rename_i notLower
      rw [and_iff_right notLower]
      split
      · rename_i less
        exact ⟨fun _ => .inl less, fun _ => rfl⟩
      · rename_i notLess
        rw [or_iff_right notLess]
        split
        · rename_i more
          exact ⟨nofun, fun ⟨same, _⟩ => absurd same (ne_of_irrefl more).symm⟩
        · rename_i notMore
          have same : a.soul = b.soul := Std.Trichotomous.trichotomous _ _ notLess notMore
          rw [and_iff_right same, decide_eq_true_iff]

/-- `a` ranks no better than `b`. -/
theorem not_before_iff :
    ¬a.before b ↔ ¬b.score < a.score ∧ (a.score < b.score ∨ ¬Named a b) := by
  rw [before_iff, not_or, not_and_or, not_not]

theorem not_before_of_before (h : a.before b) : ¬b.before a := by
  rw [not_before_iff]
  rcases before_iff.1 h with higher | ⟨notLower, named⟩
  · exact ⟨Double.not_lt_of_lt higher, .inl higher⟩
  · exact ⟨notLower, .inr (Std.Asymm.asymm _ _ named)⟩

/-- The comparison of scores is transitive. As no score is both above and below another, it is a
total preorder then. -/
def Comparable (scored : List Scored) : Prop :=
  ∀ a ∈ scored, ∀ b ∈ scored, ∀ c ∈ scored,
    ¬b.score < a.score → ¬c.score < b.score → ¬c.score < a.score

theorem comparable_of_numbers (numbers : ∀ s ∈ scored, ¬s.score.isNaN) : Comparable scored :=
  fun _ ha _ hb _ hc => Double.not_lt_trans (numbers _ ha) (numbers _ hb) (numbers _ hc)

theorem eq_of_not_named (h : ¬Named a b) (k : ¬Named b a) :
    (a.soul, a.source) = (b.soul, b.source) :=
  Std.Trichotomous.trichotomous (r := Prod.Lex (· < ·) (· < ·)) _ _ h k

theorem not_named_trans (h : ¬Named a b) (k : ¬Named b c) : ¬Named a c := by
  intro named
  by_cases back : Named b a
  · exact k (IsTrans.trans _ _ _ back named)
  · rw [Named, eq_of_not_named h back] at named
    exact k named

/-- To rank no better is transitive. -/
theorem Comparable.not_before_trans (h : Comparable scored) (ha : a ∈ scored) (hb : b ∈ scored)
    (hc : c ∈ scored) (first : ¬a.before b) (second : ¬b.before c) : ¬a.before c := by
  rw [not_before_iff] at first second ⊢
  refine ⟨h a ha b hb c hc first.1 second.1, ?_⟩
  by_cases lower : a.score < c.score
  · exact .inl lower
  · -- none of the three scores is below another then
    have named : ¬Named a b := first.2.resolve_left (h b hb c hc a ha second.1 lower)
    have named' : ¬Named b c := second.2.resolve_left (h c hc a ha b hb lower first.1)
    exact .inr (not_named_trans named named')

/-- Each row ranks no better than those that follow it. -/
abbrev Ranked (ys : List Scored) : Prop := ys.Pairwise fun y z => ¬y.before z

theorem advance_ranked (h : Comparable scored) (hx : x ∈ scored) (sub : ys ⊆ scored)
    (ranked : Ranked ys) : Ranked (advance x ys) := by
  induction ys with
  | nil => exact List.pairwise_singleton ..
  | cons y ys ih =>
    have ⟨first, rest⟩ := List.pairwise_cons.1 ranked
    have ⟨hy, later⟩ := List.cons_subset.1 sub
    unfold advance
    split
    · rename_i passes
      refine List.pairwise_cons.2 ⟨fun z hz => ?_, ih later rest⟩
      rcases mem_advance.1 hz with rfl | hz
      · exact not_before_of_before passes
      · exact first z hz
    · rename_i stays
      refine List.pairwise_cons.2 ⟨fun z hz => ?_, ranked⟩
      rcases List.mem_cons.1 hz with rfl | hz
      · exact stays
      · exact h.not_before_trans hx hy (later hz) stays (first z hz)

theorem foldl_ranked (h : Comparable scored) (new : xs ⊆ scored) (old : ys ⊆ scored)
    (ranked : Ranked ys) : Ranked (xs.foldl (fun ys x => advance x ys) ys) := by
  induction xs generalizing ys with
  | nil => exact ranked
  | cons x xs ih =>
    have ⟨hx, later⟩ := List.cons_subset.1 new
    apply ih later
    · intro z hz
      rcases mem_advance.1 hz with rfl | hz
      · exact hx
      · exact old hz
    · exact advance_ranked h hx old ranked

theorem ranking_ranked (h : Comparable scored) : Ranked (ranking scored) :=
  foldl_ranked h (List.Subset.refl _) (List.nil_subset _) .nil

/-- A best of the candidates: no score is higher, no equal score has a smaller soul, and none with
the same soul has a smaller source. -/
structure Best (scored : List Scored) (best : Scored) : Prop where
  mem : best ∈ scored
  score : ∀ s ∈ scored, ¬best.score < s.score
  soul : ∀ s ∈ scored, ¬s.score < best.score → ¬s.soul < best.soul
  source : ∀ s ∈ scored, ¬s.score < best.score → s.soul = best.soul → ¬s.source < best.source

/-- What no score, soul or source tells apart. -/
structure Alike (a b : Scored) : Prop where
  soul : a.soul = b.soul
  source : a.source = b.source
  score : ¬a.score < b.score ∧ ¬b.score < a.score

/-- A best candidate is one that nothing ranks before. -/
theorem best_iff : Best scored best ↔ best ∈ scored ∧ ∀ s ∈ scored, ¬s.before best := by
  simp only [not_before_iff]
  constructor
  · intro h
    refine ⟨h.mem, fun s hs => ⟨h.score s hs, ?_⟩⟩
    by_cases lower : s.score < best.score
    · exact .inl lower
    · rw [Named, Prod.lex_def, not_or, not_and]
      exact .inr ⟨h.soul s hs lower, h.source s hs lower⟩
  · rintro ⟨mem, first⟩
    have named : ∀ s ∈ scored, ¬s.score < best.score → ¬Named s best :=
      fun s hs notLower => (first s hs).2.resolve_left notLower
    simp only [Named, Prod.lex_def, not_or, not_and] at named
    exact ⟨mem, fun s hs => (first s hs).1, fun s hs notLower => (named s hs notLower).1,
      fun s hs notLower => (named s hs notLower).2⟩

theorem Best.alike (ha : Best scored a) (hb : Best scored b) : Alike a b := by
  have ⟨notLower, named⟩ := not_before_iff.1 ((best_iff.1 hb).2 a ha.mem)
  have ⟨notHigher, named'⟩ := not_before_iff.1 ((best_iff.1 ha).2 b hb.mem)
  have same := eq_of_not_named (named.resolve_left notHigher) (named'.resolve_left notLower)
  have ⟨soul, source⟩ := Prod.mk.inj same
  exact ⟨soul, source, notHigher, notLower⟩

theorem Best.perm (h : Best xs best) (perm : xs.Perm scored) : Best scored best := by
  rw [best_iff] at h ⊢
  exact ⟨perm.subset h.1, fun s hs => h.2 s (perm.symm.subset hs)⟩

theorem Comparable.perm (h : Comparable scored) (perm : xs.Perm scored) : Comparable xs :=
  fun a ha b hb c hc => h a (perm.subset ha) b (perm.subset hb) c (perm.subset hc)

/-- The first of a ranking is a best candidate. -/
theorem Comparable.exists_best (h : Comparable scored) (nonempty : scored ≠ []) :
    ∃ best, (ranking scored).getLast? = some best ∧ Best scored best := by
  obtain ⟨x, hx⟩ := List.exists_mem_of_ne_nil _ nonempty
  have found := List.getLast?_eq_some_getLast (List.ne_nil_of_mem (mem_ranking.2 hx))
  obtain ⟨rest, whole⟩ := List.getLast?_eq_some_iff.1 found
  have ranked := ranking_ranked h
  rw [whole] at ranked
  have first := (List.pairwise_append.1 ranked).2.2
  refine ⟨_, found, best_iff.2 ⟨mem_ranking.1 (List.mem_of_getLast? found), fun s hs => ?_⟩⟩
  rw [← mem_ranking, whole] at hs
  rcases List.mem_append.1 hs with hs | hs
  · exact first s hs _ List.mem_cons_self
  · rw [List.mem_singleton.1 hs]
    exact fun self => not_before_of_before self self

/-- There is a champion unless there are no candidates. If their scores can be compared, as they can
if all of them are numbers, the champion is the best of them, and however they are arranged, the
first of their ranking is like it. -/
theorem champion_best (objectives : List Objective) (candidates : List Candidate) :
    (champion? objectives candidates = none ↔ candidates = []) ∧
    ((∀ s ∈ ofCandidates objectives candidates, ¬s.score.isNaN) →
      Comparable (ofCandidates objectives candidates)) ∧
    (Comparable (ofCandidates objectives candidates) → candidates ≠ [] →
      ∃ best, champion? objectives candidates = some best ∧
        Best (ofCandidates objectives candidates) best ∧
        ∀ scored, scored.Perm (ofCandidates objectives candidates) →
          ∃ other, (ranking scored).getLast? = some other ∧ Alike other best) := by
  have empty : ofCandidates objectives candidates = [] ↔ candidates = [] := List.map_eq_nil_iff
  refine ⟨?_, comparable_of_numbers, fun h nonempty => ?_⟩
  · rw [← empty, champion?, List.getLast?_eq_none_iff]
    simp only [List.eq_nil_iff_forall_not_mem, mem_ranking]
  · obtain ⟨best, found, isBest⟩ := h.exists_best fun none => nonempty (empty.1 none)
    refine ⟨best, found, isBest, fun scored perm => ?_⟩
    have nonempty' : scored ≠ [] := by
      rintro rfl
      exact nonempty (empty.1 perm.nil_eq.symm)
    obtain ⟨other, first, alsoBest⟩ := (h.perm perm).exists_best nonempty'
    exact ⟨other, first, (alsoBest.perm perm).alike isBest⟩

/-- Three candidates with the same latency and a slower one. -/
def rivals : List Candidate :=
  let candidate (soul source : String) (latency : Float) : Candidate :=
    ⟨⟨soul⟩, source, .ofList [("latency", latency)]⟩
  [candidate "a" "slow" 7.0, candidate "b" "first" 5.0, candidate "a" "second" 5.0,
    candidate "a" "first" 5.0]

theorem champion_best_rivals :
    let objectives := [⟨"latency", 0.5, .minimize⟩]
    ∃ best, champion? objectives rivals = some best ∧
      (best.soul, best.source) = (⟨"a"⟩, "first") ∧ Best (ofCandidates objectives rivals) best := by
  intro objectives
  have facts : (∀ s ∈ ofCandidates objectives rivals, ¬s.score.isNaN) ∧
      (champion? objectives rivals).map (fun s => (s.soul, s.source)) = some (⟨"a"⟩, "first") := by
    decide +kernel
  obtain ⟨numbers, named⟩ := facts
  have main := champion_best objectives rivals
  obtain ⟨best, found, isBest, -⟩ := main.2.2 (main.2.1 numbers) nofun
  rw [found] at named
  exact ⟨best, found, Option.some.inj named, isBest⟩

end GeneCalculus.Scored
