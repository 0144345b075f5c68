import GeneCalculus.Fitness.Score
import GeneCalculus.Json.Reader
import GeneCalculus.Registry.Equivalence

/-!
Champions: for each group of souls the gene with the best score. The champion is chosen anew
whenever a gene, an edge or a measurement comes in.
-/

namespace GeneCalculus

/-- A gene with the latest measurements of its soul. Where there is none, the gene's own size,
complexity and purity stand in for metrics of these names. -/
def Gene.candidate (g : Gene) (metrics : Keyed Float) : Candidate :=
  let own := [
    ("size", (UInt64.ofNat g.size).toFloat),
    ("complexity", g.complexity),
    ("purity", g.purity)]
  ⟨g.soul, g.source, own.foldl (fun values (name, value) =>
    if (values.get? name).isSome then values else values.put name value) metrics⟩

namespace Champion

/-- A share as it is read back after it was written as JSON. -/
def readBack? (x : Float) : Option Float :=
  match Json.parse (Json.realText x) with
  | some (.number (some (.real y))) => some y
  | _ => none

/-- The shares of a champion as they are read back. A share that is not finite has no JSON. -/
def sharesBack (shares : Keyed Float) : Except Error (Keyed Float) :=
  match shares.entries.mapM fun (name, x) => (readBack? x).map fun y => (name, y) with
  | some entries => .ok (.ofList entries)
  | none => .error .json

end Champion

/-- A champion as it is read. Its souls are looked at before its shares. -/
def Champion.read (c : Champion) : Except Error Champion :=
  return { c with
    canonical := ← c.canonical.read
    soul := ← c.soul.read
    objectives := ← Champion.sharesBack c.objectives }

namespace Registry

/-- The candidates of a soul: its genes, each with its latest measurements. -/
def candidatesOf (R : Registry) (soul : SoulId) : Except Error (List Candidate) := do
  let metrics ← R.latestMetrics soul
  let genes ← R.readGenes soul
  return genes.map (·.candidate metrics)

/-- The champion of a group, by its scores. The candidates come soul by soul. -/
def bestOf? (R : Registry) (souls : List SoulId) (key : SoulId) :
    Except Error (Option Champion) := do
  let candidates ← souls.mapM R.candidatesOf
  return (Scored.champion? R.policy.objectives candidates.flatten).map fun best =>
    ⟨key, best.soul, best.source, best.score, best.shares⟩

/-- Writes a champion in place of the one with its key. A score that is no number has no place. -/
def storeChampion (R : Registry) (c : Champion) : Outcome Unit :=
  match tabled? c.score with
  | none => (.error (.notNumber .champion), R)
  | some score => (.ok (), { R with
      champions := upsert (·.canonical) { c with score } R.champions })

/-- Chooses the champion of a soul's group. Champions of groups that have become part of it go. -/
def recompute (R : Registry) (soul : SoulId) : Outcome (Option Champion) :=
  match R.group soul with
  | .error e => (.error e, R)
  | .ok souls =>
    let key := souls.headD soul
    match R.bestOf? souls key with
    | .error e => (.error e, R)
    | .ok none => (.ok none, R)
    | .ok (some best) =>
      let merged := R.champions.filter fun c => c.canonical = key ∨ c.canonical ∉ souls
      match { R with champions := merged }.storeChampion best with
      | (.error e, _) => (.error e, R)
      | (.ok _, S) => (.ok (some best), S)

/-- Writes a champion that was chosen elsewhere. -/
def insertChampion (R : Registry) (c : Champion) : Outcome Unit :=
  match R.requireSouls [c.canonical, c.soul] with
  | .error e => (.error e, R)
  | .ok _ => R.storeChampion c

/-- The champion that is stored for the group of a soul. -/
def championFor (R : Registry) (soul : SoulId) : Except Error (Option Champion) := do
  let key ← R.groupKey soul
  match R.champions.find? (·.canonical = key) with
  | none => return none
  | some c => return some (← c.read)

/-- Chooses the champion of a soul's group after `answer` was stored. -/
def settle {α : Type} (R : Registry) (soul : SoulId) (answer : α) : Outcome α :=
  (R.recompute soul).map fun _ => answer

end Registry

end GeneCalculus
