import GeneCalculus.Proofs.Registry.Candidacy
import GeneCalculus.Proofs.Registry.ReadingBack

/-!
What the table of champions says in a settled registry, and that it says the same wherever the other
tables do: neither the order of the edges nor the rest of a history leaves a trace in it. The score
of a row is the one that was computed, and its shares can be read back.
-/

namespace GeneCalculus

/-- What an edge says, without the place where it was recorded. -/
def Edge.link (e : Edge) : SoulId × SoulId × Float := (e.low, e.high, e.confidence)

/-- A champion whose score has a place in a table is stored with this score, and its shares can be
read back. -/
theorem Scored.stored {objectives : List Objective} {candidates : List Candidate} {best : Scored}
    {score : Float} (found : champion? objectives candidates = some best)
    (number : tabled? best.score = some score) :
    score = best.score ∧ ∃ shares, Champion.sharesBack best.shares = .ok shares := by
  refine ⟨?_, (legible found number).exists_sharesBack⟩
  unfold tabled? at number
  split at number
  · cases number
  · cases number
    exact Double.add_zero_eq (bounded_of_mem (mem_of_champion? found)).signed

namespace Registry

variable {R S : Registry} {soul t : SoulId} {souls : List SoulId} {c : Champion}

theorem SettledBut.nodup (settled : R.Settled) : R.champions.Nodup := by
  have unique : (R.champions.map (·.canonical)).Pairwise (· ≠ ·) := settled.unique
  apply List.Pairwise.of_map _ _ unique
  intro _ _ differ same
  exact differ (congrArg Champion.canonical same)

/-- Edges that say the same can be read alike. -/
theorem ClearAt.congr {minConfidence : Float} (clear : R.ClearAt minConfidence)
    (edges : ∀ l, l ∈ S.edges.map Edge.link → l ∈ R.edges.map Edge.link) :
    S.ClearAt minConfidence := by
  intro e he enough
  obtain ⟨d, hd, same⟩ := List.mem_map.1 (edges e.link (List.mem_map_of_mem he))
  have ⟨low, rest⟩ := Prod.mk.inj same
  have ⟨high, confidence⟩ := Prod.mk.inj rest
  rw [← confidence] at enough
  exact low ▸ high ▸ clear d hd enough

deriving instance DecidableEq for Gene, Metric

end Registry

end GeneCalculus
