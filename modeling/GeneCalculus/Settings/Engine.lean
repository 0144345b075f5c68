import GeneCalculus.Canonical.Form
import GeneCalculus.Fitness.Objective

/-!
Settings of the engine, and their standard values.
-/

namespace GeneCalculus

structure RegistrySettings where
  /-- Where the registry is kept. -/
  database : String
  /-- The least confidence of an edge between souls that share a champion. -/
  minConfidence : Float
  objectives : List Objective

def RegistrySettings.standard : RegistrySettings := ⟨"./data/souls.db", 0.5, Objective.standard⟩

structure Settings where
  /-- Reductions in one normalization. -/
  maxSteps : Nat
  /-- Passes of one rewriting. -/
  maxPasses : Nat
  /-- Limits of canonicalization. -/
  soul : Limits
  registry : RegistrySettings

def Settings.standard : Settings := ⟨10000, 64, .standard, .standard⟩

end GeneCalculus
