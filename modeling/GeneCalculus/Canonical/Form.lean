import GeneCalculus.Canonical.Encoding
import GeneCalculus.Identity
import GeneCalculus.Reduction.Normal
import GeneCalculus.Rewrite.Saturation

/-!
Canonical forms and souls. Normalization and rewriting take turns until neither changes the
expression; the soul is the digest of the bytes of what they reach. A soul is provisional if a limit
stopped them, since another limit may then give another soul.
-/

namespace GeneCalculus

/-- The limits of canonicalization. -/
structure Limits where
  /-- Reductions in each round. -/
  normalizeBudget : Nat
  /-- Rounds of normalization and rewriting. -/
  maxRounds : Nat
  /-- Rewriting passes in each round. -/
  maxPasses : Nat
  /-- Nodes of the largest tree that is written out node by node. -/
  maxTreeSize : Nat
  deriving DecidableEq

def Limits.standard : Limits := ⟨100000, 16, 64, 1048576⟩

structure Soul where
  id : SoulId
  provisional : Bool
  deriving DecidableEq

/-- A canonical form and what was learned on the way to it. -/
structure Canonical where
  soul : Soul
  root : NodeId
  bytes : List UInt8
  initialCost : Nat
  finalCost : Nat
  rounds : Nat
  passes : Nat
  stepsUsed : Nat
  applied : Tally

/-- How many times cheaper the final cost is. -/
def speedup (initialCost finalCost : Nat) : Float :=
  if finalCost = 0 then 1.0
  else (UInt64.ofNat initialCost).toFloat / (UInt64.ofNat finalCost).toFloat

namespace Canonical

/-- The rounds so far. -/
structure Rounds where
  current : NodeId
  exhausted : Bool
  converged : Bool
  rounds : Nat
  passes : Nat
  stepsUsed : Nat
  applied : Tally

/-- At most `cap` further rounds. The last one changes nothing or lacks steps. -/
def roundsFrom (limits : Limits) : (cap : Nat) → Rounds → Arena → Rounds × Arena
  | 0, s, A => (s, A)
  | cap + 1, s, A =>
    match A.normalize s.current limits.normalizeBudget with
    | (normalized, A) =>
      match A.saturate Rule.table limits.maxPasses normalized.result with
      | (rewritten, A) =>
        let converged := normalized.result = s.current ∧ rewritten.result = s.current
        let next : Rounds :=
          { current := rewritten.result
            exhausted := s.exhausted || normalized.exhausted
            converged
            rounds := s.rounds + 1
            passes := s.passes + rewritten.passes
            stepsUsed := s.stepsUsed + normalized.stepsUsed
            applied := s.applied.merge rewritten.applied }
        if next.converged || next.exhausted then (next, A) else roundsFrom limits cap next A

end Canonical

namespace Arena

/-- The canonical form of the expression at `root`. -/
def canonicalize (A : Arena) (limits : Limits) (root : NodeId) : Canonical × Arena :=
  let initialCost := A.cost root
  match Canonical.roundsFrom limits limits.maxRounds ⟨root, false, false, 0, 0, 0, .empty⟩ A with
  | (s, A) =>
    let oversized := limits.maxTreeSize < A.treeSize s.current
    let bytes := if oversized then A.encodeShared s.current else A.encode s.current
    ({ soul := ⟨.ofCanonical bytes, s.exhausted || !s.converged || oversized⟩
       root := s.current
       bytes
       initialCost
       finalCost := A.cost s.current
       rounds := s.rounds
       passes := s.passes
       stepsUsed := s.stepsUsed
       applied := s.applied }, A)

end Arena

/-- The outcome of an optimization. -/
structure Optimized where
  result : NodeId
  initialCost : Nat
  finalCost : Nat
  passes : Nat
  fixpoint : Bool
  applied : Tally
  deriving DecidableEq

/-- The canonical form, if it is final and costs no more; else the expression at `root` as it is. -/
def Arena.optimize (A : Arena) (limits : Limits) (root : NodeId) : Optimized × Arena :=
  match A.canonicalize limits root with
  | (c, A) =>
    if c.soul.provisional || c.initialCost < c.finalCost then
      (⟨root, c.initialCost, c.initialCost, c.passes, false, .empty⟩, A)
    else (⟨c.root, c.initialCost, c.finalCost, c.passes, true, c.applied⟩, A)

/-- The soul of the expression at `root` under the standard limits. -/
def Arena.soul (A : Arena) (root : NodeId) : Soul := (A.canonicalize .standard root).1.soul

end GeneCalculus
