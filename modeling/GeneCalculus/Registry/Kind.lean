/-!
Kinds of stored objects.
-/

namespace GeneCalculus

/-- What a stored object holds: a submitted expression, a gene, canonical bytes, the statement of an
attestation, or the manifest of an organism. -/
inductive ObjectKind
  | source | gene | ir | proof | organism
  deriving DecidableEq

namespace ObjectKind

def name : ObjectKind → String
  | source => "source"
  | gene => "gene"
  | ir => "ir"
  | proof => "proof"
  | organism => "organism"

def ofName? : String → Option ObjectKind
  | "source" => some source
  | "gene" => some gene
  | "ir" => some ir
  | "proof" => some proof
  | "organism" => some organism
  | _ => none

theorem ofName?_name (k : ObjectKind) : ofName? k.name = some k := by cases k <;> rfl

end ObjectKind

end GeneCalculus
