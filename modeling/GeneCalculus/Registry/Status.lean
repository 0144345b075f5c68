import GeneCalculus.Registry.Tables

/-!
How much a registry holds.
-/

namespace GeneCalculus

structure Status where
  objects : Nat
  storedBytes : Nat
  genes : Nat
  uniqueSouls : Nat
  equivalences : Nat
  champions : Nat
  organisms : Nat
  attestations : Nat
  metrics : Nat
  deriving DecidableEq

namespace Registry

def status (R : Registry) : Status where
  objects := R.objects.length
  storedBytes := R.objects.foldl (fun sum object => sum + object.size) 0
  genes := R.genes.length
  uniqueSouls := (R.genes.map (·.soul)).eraseDups.length
  equivalences := R.edges.length
  champions := R.champions.length
  organisms := R.organisms.length
  attestations := R.attestations.length
  metrics := R.metrics.length

/-- Number of rows of a table. -/
def count (R : Registry) (table : String) : Except Error Nat :=
  match table with
  | "objects" => .ok R.status.objects
  | "genes" => .ok R.status.genes
  | "equivalences" => .ok R.status.equivalences
  | "champions" => .ok R.status.champions
  | "organisms" => .ok R.status.organisms
  | "attestations" => .ok R.status.attestations
  | "metrics" => .ok R.status.metrics
  | _ => .error (.unknownTable table)

end Registry

end GeneCalculus
