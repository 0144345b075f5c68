import GeneCalculus.Order.Ascending
import GeneCalculus.Registry.Tables

/-!
Groups of souls. The edges that are confident enough join souls into groups, and a group is known by
its smallest soul.
-/

namespace GeneCalculus

/-- The order of souls on lists of them. -/
abbrev SoulId.sorted (souls : List SoulId) : List SoulId := Ascending.sorted souls

namespace Equivalence

/-- Adds the other end of each link that has one end in `seen`. -/
def spread (links : List (SoulId × SoulId)) (seen : List SoulId) : List SoulId :=
  links.foldl (fun seen (a, b) =>
    if a ∈ seen then Ascending.insert b seen
    else if b ∈ seen then Ascending.insert a seen
    else seen) seen

/-- Spreads until nothing new is found, at most `fuel` times. -/
def saturate (links : List (SoulId × SoulId)) : Nat → List SoulId → List SoulId
  | 0, seen => seen
  | fuel + 1, seen =>
    let next := spread links seen
    if next.length = seen.length then seen else saturate links fuel next

/-- What links join to `start`, itself included, in ascending order. Each spread that finds
something new uses up a link, so there are no more of them than links. -/
def component (links : List (SoulId × SoulId)) (start : SoulId) : List SoulId :=
  saturate links links.length [start]

/-- What the edges of at least the given confidence join to `start`. -/
def classOf (edges : List (SoulId × SoulId × Float)) (start : SoulId) (minConfidence : Float) :
    List SoulId :=
  component ((edges.filter fun (_, _, confidence) => minConfidence ≤ confidence).map
    fun (a, b, _) => (a, b)) start

end Equivalence

namespace Registry

/-- The souls that edges of at least the given confidence join to a known soul. Only these edges are
read. -/
def equivalenceClass (R : Registry) (soul : SoulId) (minConfidence : Float) :
    Except Error (List SoulId) :=
  if R.knows soul then do
    let edges ← (R.edges.filter fun e => minConfidence ≤ e.confidence).mapM Edge.read
    return Equivalence.classOf (edges.map fun e => (e.low, e.high, e.confidence)) soul minConfidence
  else .error (.unknownSoul soul)

/-- The group of a known soul. -/
def group (R : Registry) (soul : SoulId) : Except Error (List SoulId) :=
  R.equivalenceClass soul R.policy.minConfidence

/-- The smallest soul of the group of a known soul. -/
def groupKey (R : Registry) (soul : SoulId) : Except Error SoulId :=
  (R.group soul).map fun souls => souls.headD soul

end Registry

end GeneCalculus
