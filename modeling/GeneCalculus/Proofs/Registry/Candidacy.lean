import GeneCalculus.Proofs.Registry.Crown
import Mathlib.Data.List.Forall2

/-!
What a candidate says. It stands for a gene with the value that was recorded last for each metric of
the gene's soul; where none was recorded, the gene's own size, complexity and purity stand in.
-/

namespace GeneCalculus

namespace Keyed

variable {α : Type}

/-- Puts a value under a name that has none. -/
def fill (t : Keyed α) (name : String) (value : α) : Keyed α :=
  if (t.get? name).isSome then t else t.put name value

end Keyed

/-- What a gene says of itself in place of a metric. -/
def Gene.own? (g : Gene) (metric : String) : Option Float :=
  if metric = "size" then some (UInt64.ofNat g.size).toFloat
  else if metric = "complexity" then some g.complexity
  else if metric = "purity" then some g.purity
  else none

namespace Registry

variable {R : Registry} {g : Gene} {soul : SoulId} {souls : List SoulId}

/-- The value that was recorded last for a metric of a soul. -/
def recorded? (R : Registry) (soul : SoulId) (metric : String) : Option Float :=
  (R.metrics.filter fun m => m.soul = soul ∧ m.metric = metric).getLast?.map (·.value)

/-- The candidate stands for the gene. -/
structure Stands (R : Registry) (g : Gene) (c : Candidate) : Prop where
  soul : c.soul = g.soul
  source : c.source = g.source
  value : ∀ metric, c.values.get? metric = (R.recorded? g.soul metric).or (g.own? metric)

end Registry

end GeneCalculus
