import GeneCalculus.Proofs.Registry.Group
import GeneCalculus.Registry.Champions

/-!
What choosing a champion does. Where the rows can be read, the champion of a group is one of its
candidates, every known soul has candidates in its group, and the new row takes the place of all rows
of the group.
-/

namespace GeneCalculus

namespace Scored

variable {objectives : List Objective} {candidates : List Candidate} {best x y : Scored}
  {xs ys : List Scored}

theorem mem_advance : y ∈ advance x ys ↔ y = x ∨ y ∈ ys := by
  induction ys with
  | nil => simp only [advance, List.mem_singleton, List.not_mem_nil, or_false]
  | cons z zs ih =>
    unfold advance
    split
    · simp only [List.mem_cons, ih, or_left_comm]
    · simp only [List.mem_cons]

theorem mem_foldl_advance :
    y ∈ xs.foldl (fun ys x => advance x ys) ys ↔ y ∈ xs ∨ y ∈ ys := by
  induction xs generalizing ys with
  | nil => simp only [List.foldl_nil, List.not_mem_nil, false_or]
  | cons x xs ih => rw [List.foldl_cons, ih, mem_advance, List.mem_cons, or_left_comm, or_assoc]

theorem mem_ranking : y ∈ ranking xs ↔ y ∈ xs := by
  simp only [ranking, mem_foldl_advance, List.not_mem_nil, or_false]

theorem mem_of_champion? (found : champion? objectives candidates = some best) :
    best ∈ ofCandidates objectives candidates :=
  mem_ranking.1 (List.mem_of_getLast? found)

/-- A champion is one of the candidates. -/
theorem exists_candidate (found : champion? objectives candidates = some best) :
    ∃ c ∈ candidates, c.soul = best.soul ∧ c.source = best.source := by
  obtain ⟨c, hc, rfl⟩ := List.mem_map.1 (mem_of_champion? found)
  exact ⟨c, hc, rfl, rfl⟩

theorem exists_champion {c : Candidate} (hc : c ∈ candidates) :
    ∃ best, champion? objectives candidates = some best := by
  have nonempty : ranking (ofCandidates objectives candidates) ≠ [] := by
    apply List.ne_nil_of_mem
    exact mem_ranking.2 (List.mem_map.2 ⟨c, hc, rfl⟩)
  exact ⟨_, List.getLast?_eq_some_getLast nonempty⟩

end Scored

namespace Registry

variable {R : Registry} {soul : SoulId} {souls : List SoulId} {best : Scored} {score : Float}

theorem knows_iff : R.knows soul ↔ ∃ g ∈ R.genes, g.soul = soul := by
  simp only [knows, List.any_eq_true, decide_eq_true_eq]

/-- The latest value of each metric of a soul, if they are read. -/
def latest (R : Registry) (soul : SoulId) : Keyed Float :=
  .ofList ((R.metricsOf soul).map fun m => (m.metric, m.value))

/-- The candidates of a group, if they are read. -/
def candidates (R : Registry) (souls : List SoulId) : List Candidate :=
  souls.flatMap fun soul => (R.genesOf soul).map (·.candidate (R.latest soul))

theorem readGenes_of_wellFormed (formed : soul.WellFormed) :
    R.readGenes soul = .ok (R.genesOf soul) := by
  apply Gene.rereads.mapM.good
  intro g hg
  have same : g.soul = soul := of_decide_eq_true (List.mem_filter.1 hg).2
  exact same ▸ formed

/-- The genes of a known soul fail to be read as it does. -/
theorem readGenes_of_error {e : Error} (known : R.knows soul) (failed : soul.read = .error e) :
    R.readGenes soul = .error e := by
  obtain ⟨g, hg, same⟩ := knows_iff.1 known
  have mem : g ∈ R.genesOf soul := List.mem_filter.2 ⟨hg, decide_eq_true same⟩
  unfold readGenes
  cases genes : R.genesOf soul with
  | nil =>
    rw [genes] at mem
    cases mem
  | cons first rest =>
    have first_mem : first ∈ R.genesOf soul := genes ▸ List.mem_cons_self
    obtain rfl : first.soul = soul := of_decide_eq_true (List.mem_filter.1 first_mem).2
    rw [List.mapM_cons, Gene.read, failed]
    rfl

theorem latestMetrics_of_wellFormed (formed : soul.WellFormed) :
    R.latestMetrics soul = .ok (R.latest soul) := by
  have read : (R.metricsOf soul).mapM Metric.read = .ok (R.metricsOf soul) := by
    apply Metric.rereads.mapM.good
    intro m hm
    have same : m.soul = soul := of_decide_eq_true (List.mem_filter.1 hm).2
    exact same ▸ formed
  rw [latestMetrics, read]
  rfl

theorem candidatesOf_of_wellFormed (formed : soul.WellFormed) :
    R.candidatesOf soul = .ok ((R.genesOf soul).map (·.candidate (R.latest soul))) := by
  rw [candidatesOf, latestMetrics_of_wellFormed formed, readGenes_of_wellFormed formed]
  rfl

theorem candidatesOf_of_not_wellFormed (known : R.knows soul) (ill : ¬soul.WellFormed) :
    Unread (R.candidatesOf soul) := by
  obtain ⟨cause, failed⟩ := SoulId.rereads.bad soul ill
  unfold candidatesOf latestMetrics
  rcases Metric.rereads.mapM.cases (R.metricsOf soul) with read | unread
  · rw [read, readGenes_of_error known failed]
    exact ⟨cause, rfl⟩
  · exact (unread.bind _).bind _

/-- The candidates of well-formed souls are read soul by soul. -/
theorem mapM_candidatesOf (formed : ∀ soul ∈ souls, soul.WellFormed) :
    ∃ each, souls.mapM R.candidatesOf = .ok each ∧ each.flatten = R.candidates souls := by
  induction souls with
  | nil => exact ⟨[], rfl, rfl⟩
  | cons soul souls ih =>
    have ⟨first, later⟩ := List.forall_mem_cons.1 formed
    obtain ⟨each, read, flat⟩ := ih later
    refine ⟨(R.genesOf soul).map (·.candidate (R.latest soul)) :: each, ?_, ?_⟩
    · rw [List.mapM_cons, candidatesOf_of_wellFormed first, read]
      rfl
    · rw [List.flatten_cons, flat]
      rfl

theorem mem_candidates {c : Candidate} : c ∈ R.candidates souls ↔
    ∃ g ∈ R.genes, g.soul ∈ souls ∧ g.candidate (R.latest g.soul) = c := by
  simp only [candidates, genesOf, List.mem_flatMap, List.mem_map, List.mem_filter,
    decide_eq_true_eq]
  constructor
  · rintro ⟨s, hs, g, ⟨hg, rfl⟩, rfl⟩
    exact ⟨g, hg, hs, rfl⟩
  · rintro ⟨g, hg, hs, rfl⟩
    exact ⟨g.soul, hs, g, ⟨hg, rfl⟩, rfl⟩

/-- A champion is a gene of its group. -/
theorem knows_of_champion?
    (found : Scored.champion? R.policy.objectives (R.candidates souls) = some best) :
    best.soul ∈ souls ∧ R.knows best.soul := by
  obtain ⟨c, hc, same, -⟩ := Scored.exists_candidate found
  obtain ⟨g, hg, hs, rfl⟩ := mem_candidates.1 hc
  rw [← same]
  exact ⟨hs, knows_iff.2 ⟨g, hg, rfl⟩⟩

/-- The group of a known soul has a champion. -/
theorem exists_champion (known : R.knows soul) :
    ∃ best, Scored.champion? R.policy.objectives (R.candidates (R.groupOf soul)) = some best := by
  obtain ⟨g, hg, rfl⟩ := knows_iff.1 known
  exact Scored.exists_champion (mem_candidates.2 ⟨g, hg, mem_groupOf_self, rfl⟩)

/-- The table of champions with `row` in place of all rows of its group. -/
def crown (R : Registry) (souls : List SoulId) (row : Champion) : Registry :=
  let others := R.champions.filter fun c => c.canonical = row.canonical ∨ c.canonical ∉ souls
  { R with champions := upsert (·.canonical) row others }

/-- What is read for a champion of the soul's group can be read: the soul, and the edges. -/
structure Reads (R : Registry) (soul : SoulId) : Prop where
  formed : soul.WellFormed
  clear : R.Clear

/-- So can all members of the group. -/
theorem Reads.member {other : SoulId} (reads : R.Reads soul) (member : other ∈ R.groupOf soul) :
    R.Reads other := ⟨(mem_groupOf.1 member).wellFormed reads.clear reads.formed, reads.clear⟩

theorem bestOf?_of_reads (reads : R.Reads soul) (key : SoulId) :
    R.bestOf? (R.groupOf soul) key =
      .ok ((Scored.champion? R.policy.objectives (R.candidates (R.groupOf soul))).map fun best =>
        ⟨key, best.soul, best.source, best.score, best.shares⟩) := by
  obtain ⟨each, read, flat⟩ := mapM_candidatesOf fun _ member => (reads.member member).formed
  rw [bestOf?, read, ← flat]
  rfl

/-- A soul that is not well-formed is in no group but its own, and has no champion there. -/
theorem bestOf?_of_not_wellFormed (known : R.knows soul) (clear : R.Clear)
    (ill : ¬soul.WellFormed) (key : SoulId) : Unread (R.bestOf? (R.groupOf soul) key) := by
  rw [groupOf_of_not_wellFormed clear ill, bestOf?, List.mapM_cons]
  exact ((candidatesOf_of_not_wellFormed known ill).bind _).bind _

theorem recompute_of_unknown (unknown : ¬R.knows soul) :
    R.recompute soul = (.error (.unknownSoul soul), R) := by
  unfold recompute
  rw [group_of_unknown unknown]

theorem recompute_of_not_reads (known : R.knows soul) (unread : ¬R.Reads soul) :
    ∃ cause, R.recompute soul = (.error (.identifier cause), R) := by
  unfold recompute
  by_cases clear : R.Clear
  · have ill : ¬soul.WellFormed := fun formed => unread ⟨formed, clear⟩
    obtain ⟨cause, failed⟩ := bestOf?_of_not_wellFormed known clear ill (R.keyOf soul)
    rw [group_of_clear known clear]
    refine ⟨cause, ?_⟩
    dsimp only
    rw [show (R.groupOf soul).headD soul = R.keyOf soul from rfl, failed]
  · obtain ⟨cause, failed⟩ := equivalenceClass_of_not_clear known clear
    rw [group, failed]
    exact ⟨cause, rfl⟩

/-- The row of a soul's group, with a score as tables keep it. -/
def rowOf (R : Registry) (soul : SoulId) (best : Scored) (score : Float) : Champion :=
  ⟨R.keyOf soul, best.soul, best.source, score, best.shares⟩

/-- A champion whose score is a number takes the place of all rows of its group. -/
theorem recompute_of_champion? (known : R.knows soul) (reads : R.Reads soul)
    (found : Scored.champion? R.policy.objectives (R.candidates (R.groupOf soul)) = some best)
    (number : tabled? best.score = some score) :
    R.recompute soul = (.ok (some (R.rowOf soul best best.score)),
      R.crown (R.groupOf soul) (R.rowOf soul best score)) := by
  unfold recompute
  rw [group_of_clear known reads.clear]
  simp only [bestOf?_of_reads reads, found, Option.map_some, storeChampion, number]
  rfl

/-- A champion whose score is no number is not stored. -/
theorem recompute_of_notNumber (known : R.knows soul) (reads : R.Reads soul)
    (found : Scored.champion? R.policy.objectives (R.candidates (R.groupOf soul)) = some best)
    (noNumber : tabled? best.score = none) :
    R.recompute soul = (.error (.notNumber .champion), R) := by
  unfold recompute
  rw [group_of_clear known reads.clear]
  simp only [bestOf?_of_reads reads, found, Option.map_some, storeChampion, noNumber]

/-- All that choosing a champion can come to. An unknown soul is refused, and nothing is changed if
the rows are not read. A champion whose score is no number is not stored, and any other takes the
place of all rows of its group. -/
inductive Recomputed (R : Registry) (soul : SoulId) : Outcome (Option Champion) → Prop
  | unknown (unknown : ¬R.knows soul) : Recomputed R soul (.error (.unknownSoul soul), R)
  | unread {cause : IdentifierError} (known : R.knows soul) (unread : ¬R.Reads soul) :
      Recomputed R soul (.error (.identifier cause), R)
  | notNumber {best : Scored} (known : R.knows soul) (reads : R.Reads soul)
      (found : Scored.champion? R.policy.objectives (R.candidates (R.groupOf soul)) = some best)
      (noNumber : tabled? best.score = none) :
      Recomputed R soul (.error (.notNumber .champion), R)
  | crowned {best : Scored} {score : Float} (known : R.knows soul) (reads : R.Reads soul)
      (found : Scored.champion? R.policy.objectives (R.candidates (R.groupOf soul)) = some best)
      (number : tabled? best.score = some score) :
      Recomputed R soul (.ok (some (R.rowOf soul best best.score)),
        R.crown (R.groupOf soul) (R.rowOf soul best score))

theorem recompute_recomputed (R : Registry) (soul : SoulId) :
    R.Recomputed soul (R.recompute soul) := by
  by_cases known : R.knows soul
  · by_cases reads : R.Reads soul
    · obtain ⟨best, found⟩ := exists_champion known
      cases number : tabled? best.score with
      | none =>
        rw [recompute_of_notNumber known reads found number]
        exact .notNumber known reads found number
      | some score =>
        rw [recompute_of_champion? known reads found number]
        exact .crowned known reads found number
    · obtain ⟨cause, same⟩ := recompute_of_not_reads known reads
      rw [same]
      exact .unread known reads
  · rw [recompute_of_unknown known]
    exact .unknown known

end Registry

end GeneCalculus
