import GeneCalculus.Arena.Snapshot
import GeneCalculus.Canonical.Decoding
import GeneCalculus.Decimal.Shortest
import GeneCalculus.Identity
import GeneCalculus.Surface.Sexp

/-!
Everything that can go wrong, by its cause, and the words in which it is told. A cause belongs to a
category; corrupted storage is told apart from bad input.
-/

namespace GeneCalculus

/-- Why a file could not be read or written. -/
inductive FileFault
  | missing
  | directory
  | notText
  | other (reason : String)
  deriving DecidableEq

def FileFault.message : FileFault → String
  | missing => "No such file or directory (os error 2)"
  | directory => "Is a directory (os error 21)"
  | notText => "stream did not contain valid UTF-8"
  | other reason => reason

/-- A table of the registry that has no place for what is not a number. -/
inductive NumericTable
  | gene | champion
  deriving DecidableEq

inductive Error
  /-- A file could not be read. -/
  | file (fault : FileFault)
  /-- A text is no JSON of the expected form. -/
  | json
  | syntactic (cause : Surface.SyntaxError)
  | encoding (cause : Canonical.DecodeError)
  | identifier (cause : IdentifierError)
  | objectKind (name : String)
  | snapshot (cause : Snapshot.SnapshotError)
  | malformed (cause : Malformed)
  | infiniteMetric (metric : String) (value : Float)
  | unnamedOrganism
  | missingObject (cid : Cid)
  | corruptObject (cid actual : Cid)
  | soulCollision (soul : SoulId) (existing cid : Cid)
  | unknownObject (cid : Cid)
  | unknownSoul (soul : SoulId)
  | unknownOrganism (name : String)
  | confidence (value : Float)
  | selfLoop (soul : SoulId)
  | provisionalSoul (soul : SoulId)
  | notNumber (table : NumericTable)
  | unknownTable (name : String)

namespace Error

inductive Category
  | io | serialization | parse | validation | notFound | integrity | soulCollision | unknownObject
  | unknownSoul | unknownOrganism | invalidConfidence | selfLoop | provisionalSoul | database
  deriving DecidableEq

def category : Error → Category
  | file _ => .io
  | json => .serialization
  | snapshot (.malformed _) => .validation
  | snapshot _ => .serialization
  | syntactic _ | encoding _ | identifier _ | objectKind _ => .parse
  | malformed _ | infiniteMetric _ _ | unnamedOrganism => .validation
  | missingObject _ => .notFound
  | corruptObject _ _ => .integrity
  | soulCollision _ _ _ => .soulCollision
  | unknownObject _ => .unknownObject
  | unknownSoul _ => .unknownSoul
  | unknownOrganism _ => .unknownOrganism
  | confidence _ => .invalidConfidence
  | selfLoop _ => .selfLoop
  | provisionalSoul _ => .provisionalSoul
  | notNumber _ | unknownTable _ => .database

/-- Whether stored data are at fault rather than the input. -/
def fatal (e : Error) : Bool :=
  match e.category with
  | .integrity | .soulCollision => true
  | _ => false

/-- How the message of each category begins. -/
def Category.opening : Category → String
  | .io => "IO error: "
  | .serialization => "Serialization error: "
  | .parse => "Parse error: "
  | .validation => "Validation error: "
  | .notFound => "Not found: "
  | .integrity => "Integrity violation: "
  | .soulCollision => "Soul collision on "
  | .unknownObject => "Unknown object: "
  | .unknownSoul => "Unknown soul: "
  | .unknownOrganism => "Unknown organism: "
  | .invalidConfidence => "Invalid confidence "
  | .selfLoop => "Self-loop equivalence on "
  | .provisionalSoul => "Provisional soul "
  | .database => "Database error: "

/-- How the message goes on. -/
def detail : Error → String
  | file fault => fault.message
  | json => "not of the expected form"
  | syntactic cause => cause.message
  | encoding cause => cause.message
  | identifier cause => cause.message
  | objectKind name => "unknown object kind " ++ Text.Quoted.quote name
  | snapshot cause => cause.message
  | malformed cause => cause.message
  | infiniteMetric metric value => s!"metric {metric} must be finite, got " ++ Decimal.plain value
  | unnamedOrganism => "organism name must not be empty"
  | missingObject cid => "object " ++ cid.text
  | corruptObject cid actual => s!"object {cid.text} hashes to {actual.text}"
  | soulCollision soul existing cid =>
    s!"{soul.text}: registered as {existing.text}, submitted as {cid.text}"
  | unknownObject cid => cid.text
  | unknownSoul soul => soul.text
  | unknownOrganism name => name
  | confidence value => Decimal.plain value ++ ": must lie in (0, 1]"
  | selfLoop soul => soul.text
  | provisionalSoul soul => soul.text ++ ": canonicalization limits reached"
  | notNumber .gene => "Failed to store gene"
  | notNumber .champion => "Failed to store champion"
  | unknownTable name => "Unknown table " ++ name

def message (e : Error) : String := e.category.opening ++ e.detail

end Error

end GeneCalculus
