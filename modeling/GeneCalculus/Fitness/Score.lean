import GeneCalculus.Fitness.Objective
import GeneCalculus.Identity
import GeneCalculus.Order.Keyed

/-!
Scores of candidates and the champion among them. Each objective places the values of all candidates
on a scale from zero to one, and a score is the weighted sum of a candidate's places.
-/

namespace GeneCalculus

/-- A candidate and its latest value for each metric. -/
structure Candidate where
  soul : SoulId
  source : String
  values : Keyed Float

/-- A candidate's score and its place on the scale of each objective. -/
structure Scored where
  soul : SoulId
  source : String
  score : Float
  shares : Keyed Float

namespace Candidate

/-- A candidate's value for a metric, if it has a finite one. -/
def value? (c : Candidate) (metric : String) : Option Float :=
  (c.values.get? metric).filter Float.isFinite

end Candidate

namespace Objective

/-- The least and the greatest of some values. Of zeros with both signs the last one counts. -/
def range? : List Float → Option (Float × Float)
  | [] => none
  | v :: vs =>
    some (vs.foldl (fun (low, high) v =>
      (if low < v then low else v, if v < high then high else v)) (v, v))

/-- Values that are no further apart than this count as equal. -/
def resolution : Float := 1.0 / 4503599627370496.0

/-- The place of `v` between `low` and `high`, where one is best. Equal values are all best. -/
def share (direction : Direction) (low high v : Float) : Float :=
  if high - low ≤ resolution then 1.0
  else
    let place := (v - low) / (high - low)
    match direction with
    | .maximize => place
    | .minimize => 1.0 - place

/-- Each candidate's place on the scale of an objective; without a value it is zero. -/
def shareOf (o : Objective) (range : Option (Float × Float)) (c : Candidate) : Float :=
  match c.value? o.metric, range with
  | some v, some (low, high) => share o.direction low high v
  | _, _ => 0.0

end Objective

namespace Scored

/-- The scores of candidates, in their order. -/
def ofCandidates (objectives : List Objective) (candidates : List Candidate) : List Scored :=
  let scales := objectives.map fun o =>
    (o, Objective.range? (candidates.filterMap fun c => c.value? o.metric))
  candidates.map fun c =>
    let (score, shares) := scales.foldl (fun (score, shares) (o, range) =>
      let share := o.shareOf range c
      (score + o.weight * share, Keyed.put shares o.metric share)) (0.0, Keyed.empty)
    ⟨c.soul, c.source, score, shares⟩

/-- Whether `a` ranks before `b`: a higher score, else a smaller soul, else a smaller source. Scores
that cannot be compared count as equal. -/
def before (a b : Scored) : Bool :=
  if b.score < a.score then true
  else if a.score < b.score then false
  else if a.soul < b.soul then true
  else if b.soul < a.soul then false
  else a.source < b.source

/-- Moves `x` from the end of a ranking toward its front, past all that it ranks before. The ranking
is given last first. -/
def advance (x : Scored) : List Scored → List Scored
  | [] => [x]
  | y :: ys => if x.before y then y :: advance x ys else x :: y :: ys

/-- The ranking of candidates, last first. -/
def ranking (candidates : List Scored) : List Scored :=
  candidates.foldl (fun ys x => advance x ys) []

/-- The first of the ranking. -/
def champion? (objectives : List Objective) (candidates : List Candidate) : Option Scored :=
  (ranking (ofCandidates objectives candidates)).getLast?

end Scored

end GeneCalculus
