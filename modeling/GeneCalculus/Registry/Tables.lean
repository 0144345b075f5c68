import GeneCalculus.Error
import GeneCalculus.Registry.Kind
import GeneCalculus.Settings.Engine

/-!
The tables of a registry, and what is looked up in them. Rows stand in the order in which they came;
a champion or an organism that is written again keeps its place. A row is written with whatever text
its souls have, but it is read only if each of them is the text of a soul.
-/

namespace GeneCalculus

/-- Stored bytes and what was said about them when they were stored first. -/
structure StoredObject where
  cid : Cid
  kind : String
  source : Option String
  size : Nat
  data : List UInt8
  deriving DecidableEq

/-- One implementation of a meaning. -/
structure Gene where
  soul : SoulId
  /-- Where it comes from. -/
  source : String
  /-- The object with the canonical bytes. -/
  cid : Cid
  /-- The printed canonical form. -/
  ir : String
  complexity : Float
  purity : Float
  size : Nat

/-- Two souls that were found to behave alike, the smaller first. -/
structure Edge where
  id : Nat
  low : SoulId
  high : SoulId
  confidence : Float

/-- The best gene of a group of souls, under the smallest soul of the group. -/
structure Champion where
  canonical : SoulId
  soul : SoulId
  source : String
  score : Float
  objectives : Keyed Float

/-- A named set of souls. -/
structure Organism where
  name : String
  /-- Ascending. -/
  souls : List SoulId
  /-- The object with the manifest. -/
  manifest : Cid
  targets : List String
  deriving DecidableEq

/-- A signed claim that an object speaks for an organism. -/
structure Attestation where
  organism : String
  cid : Cid
  signature : String
  deriving DecidableEq

/-- One measurement. -/
structure Metric where
  id : Nat
  soul : SoulId
  metric : String
  value : Float

/-- By what a registry decides. -/
structure Policy where
  /-- The least confidence of an edge between souls that share a champion. -/
  minConfidence : Float
  objectives : List Objective
  limits : Limits

structure Registry where
  policy : Policy
  objects : List StoredObject
  genes : List Gene
  edges : List Edge
  champions : List Champion
  organisms : List Organism
  attestations : List Attestation
  metrics : List Metric

/-- A double as a table keeps it: what is no number is refused, and zero has no sign. -/
def tabled? (x : Float) : Option Float := if x.isNaN then none else some (x + 0.0)

/-- A soul as it is read from a row. Its text is parsed again, and fails if it is no soul. -/
def SoulId.read (s : SoulId) : Except Error SoulId := (SoulId.parse s.text).mapError .identifier

/-- A gene as it is read. The identifier of its object was computed when the object was stored. -/
def Gene.read (g : Gene) : Except Error Gene := return { g with soul := ← g.soul.read }

/-- An edge as it is read. -/
def Edge.read (e : Edge) : Except Error Edge :=
  return { e with low := ← e.low.read, high := ← e.high.read }

/-- A measurement as it is read. -/
def Metric.read (m : Metric) : Except Error Metric := return { m with soul := ← m.soul.read }

/-- Puts a row in place of the one with its key, or behind all rows. -/
def upsert {α κ : Type} [DecidableEq κ] (key : α → κ) (row : α) : List α → List α
  | [] => [row]
  | r :: rows => if key r = key row then row :: rows else r :: upsert key row rows

namespace Registry

def empty (policy : Policy) : Registry := ⟨policy, [], [], [], [], [], [], []⟩

/-- What an operation answers, and the registry that it leaves. -/
abbrev Outcome (α : Type) := Except Error α × Registry

/-- The same outcome with another answer. -/
def Outcome.map {α β : Type} (f : α → β) (o : Outcome α) : Outcome β := (o.1.map f, o.2)

def object? (R : Registry) (cid : Cid) : Option StoredObject := R.objects.find? (·.cid = cid)

/-- Whether a soul has a gene. -/
def knows (R : Registry) (soul : SoulId) : Bool := R.genes.any (·.soul = soul)

/-- Fails for the first soul without a gene. -/
def requireSouls (R : Registry) : List SoulId → Except Error Unit
  | [] => .ok ()
  | soul :: souls => if R.knows soul then R.requireSouls souls else .error (.unknownSoul soul)

def gene? (R : Registry) (soul : SoulId) (source : String) : Option Gene :=
  R.genes.find? fun g => g.soul = soul ∧ g.source = source

/-- The genes of a soul, oldest first. -/
def genesOf (R : Registry) (soul : SoulId) : List Gene := R.genes.filter (·.soul = soul)

/-- The edges that touch a soul, oldest first. -/
def edgesOf (R : Registry) (soul : SoulId) : List Edge :=
  R.edges.filter fun e => e.low = soul ∨ e.high = soul

/-- The measurements of a soul, oldest first. -/
def metricsOf (R : Registry) (soul : SoulId) : List Metric := R.metrics.filter (·.soul = soul)

/-- The genes of a soul as they are read. -/
def readGenes (R : Registry) (soul : SoulId) : Except Error (List Gene) :=
  (R.genesOf soul).mapM Gene.read

/-- The latest value of each metric of a soul. -/
def latestMetrics (R : Registry) (soul : SoulId) : Except Error (Keyed Float) := do
  let metrics ← (R.metricsOf soul).mapM Metric.read
  return .ofList (metrics.map fun m => (m.metric, m.value))

def organism? (R : Registry) (name : String) : Option Organism :=
  R.organisms.find? (·.name = name)

/-- The attestations of an organism, oldest first. -/
def attestationsOf (R : Registry) (organism : String) : List Attestation :=
  R.attestations.filter (·.organism = organism)

end Registry

end GeneCalculus
