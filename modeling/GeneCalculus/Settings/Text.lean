import GeneCalculus.Json.Reader
import GeneCalculus.Settings.Engine

/-!
Settings as JSON. A section is an object with the names of its fields, or an array with its fields
in order. A section may be missing and is then standard; in a section only the largest tree size may
be missing. Other names are passed over, a name that stands twice is refused.
-/

namespace GeneCalculus

namespace Json

/-- Reads a value of some kind. -/
abbrev Reader (α : Type) := Json → Option α

def readNat : Reader Nat
  | .number (some (.natural n)) => some n
  | _ => none

/-- Reads a number of any form as a double. -/
def readFloat : Reader Float
  | .number (some (.natural n)) => some (UInt64.ofNat n).toFloat
  | .number (some (.negative n)) => some (Int64.ofInt n).toFloat
  | .number (some (.real x)) => some x
  | _ => none

def readStr : Reader String
  | .text s => s
  | _ => none

def readList {α : Type} (item : Reader α) : Reader (List α)
  | .array items => items.mapM item
  | _ => none

/-- Reads one of several words, also as the only name of an object with nothing under it. -/
def readWord {α : Type} (ofName? : String → Option α) : Reader α
  | .text (some s) => ofName? s
  | .object [(some s, .null)] => ofName? s
  | _ => none

/-- The member under a name, if there is one. The outer option is a fault: more than one. -/
def member? (members : List (Option String × Json)) (name : String) : Option (Option Json) :=
  match members.filter fun m => m.1 == some name with
  | [] => some none
  | [m] => some (some m.2)
  | _ => none

/-- The fields of a section, given the names of its fields in order. -/
def section? (names : List String) : Json → Option (List (Option Json))
  | .array items =>
    if names.length < items.length then none
    else some (items.map some ++ List.replicate (names.length - items.length) none)
  | .object members =>
    if members.all fun m => m.1.isSome then names.mapM (member? members) else none
  | _ => none

/-- Reads a field that has to be there. -/
def required {α : Type} (read : Reader α) : Option Json → Option α
  | some v => read v
  | none => none

/-- Reads a field that may be missing. -/
def optional {α : Type} (standard : α) (read : Reader α) : Option Json → Option α
  | some v => read v
  | none => some standard

/-- Reads a section of one field. -/
def readSingle {α : Type} (name : String) (read : Reader α) : Reader α := fun v => do
  match ← section? [name] v with
  | [field] => required read field
  | _ => none

end Json

open Json

namespace Limits

def fieldNames : List String := ["normalize_budget", "max_rounds", "max_passes", "max_tree_size"]

def read : Reader Limits := fun v => do
  match ← section? fieldNames v with
  | [budget, rounds, passes, size] =>
    return {
      normalizeBudget := ← required readNat budget
      maxRounds := ← required readNat rounds
      maxPasses := ← required readNat passes
      maxTreeSize := ← optional standard.maxTreeSize readNat size }
  | _ => none

def json (l : Limits) : Json :=
  record (fieldNames.zip
    (List.map nat [l.normalizeBudget, l.maxRounds, l.maxPasses, l.maxTreeSize]))

end Limits

namespace Objective

def fieldNames : List String := ["metric_type", "weight", "direction"]

def read : Reader Objective := fun v => do
  match ← section? fieldNames v with
  | [metric, weight, direction] =>
    return {
      metric := ← required readStr metric
      weight := ← required readFloat weight
      direction := ← required (readWord Direction.ofName?) direction }
  | _ => none

def json (o : Objective) : Json :=
  record (fieldNames.zip [str o.metric, float o.weight, str o.direction.name])

end Objective

namespace RegistrySettings

def fieldNames : List String := ["database_path", "min_confidence", "objectives"]

def read : Reader RegistrySettings := fun v => do
  match ← section? fieldNames v with
  | [database, minConfidence, objectives] =>
    return {
      database := ← required readStr database
      minConfidence := ← required readFloat minConfidence
      objectives := ← required (readList Objective.read) objectives }
  | _ => none

def json (r : RegistrySettings) : Json :=
  record (fieldNames.zip
    [str r.database, float r.minConfidence, .array (r.objectives.map Objective.json)])

end RegistrySettings

namespace Settings

def fieldNames : List String := ["normalizer", "rewrite", "soul", "registry"]

def read : Reader Settings := fun v => do
  match ← section? fieldNames v with
  | [normalizer, rewriting, soul, registry] =>
    return {
      maxSteps := ← optional standard.maxSteps (readSingle "max_steps" readNat) normalizer
      maxPasses := ← optional standard.maxPasses (readSingle "max_passes" readNat) rewriting
      soul := ← optional standard.soul Limits.read soul
      registry := ← optional standard.registry RegistrySettings.read registry }
  | _ => none

def json (s : Settings) : Json :=
  record (fieldNames.zip [
    record [("max_steps", nat s.maxSteps)],
    record [("max_passes", nat s.maxPasses)],
    s.soul.json,
    s.registry.json])

/-- The settings that a text holds. -/
def parse (text : String) : Option Settings := (Json.parse text).bind read

/-- The text of settings, without blanks. -/
def text (s : Settings) : String := s.json.compact

end Settings

end GeneCalculus
