import GeneCalculus.Json.Value
import GeneCalculus.Registry.Equivalence
import GeneCalculus.Registry.Instant
import GeneCalculus.Registry.Store
import GeneCalculus.Text.Blank

/-!
Organisms and attestations. An organism is a named set of souls; its manifest, which lists the
canonical bytes of each of them, is a stored object. An attestation is a signed claim about an
organism that points to a stored object.
-/

namespace GeneCalculus

/-- What the manifest of an organism says. -/
structure Manifest where
  name : String
  targets : List String
  /-- Ascending by soul; the objects of each are ascending too. -/
  genes : List (SoulId × List Cid)

def Manifest.json (m : Manifest) : Json :=
  .record [
    ("name", .str m.name),
    ("targets", .array (m.targets.map .str)),
    ("genes", .record (m.genes.map fun (soul, cids) =>
      (soul.text, .array (cids.map fun cid => .str cid.text))))]

/-- What is attested of an organism. -/
def Organism.statement (o : Organism) (issued : Instant) : Json :=
  .record [
    ("organism", .str o.name),
    ("manifest", .str o.manifest.text),
    ("soulset", .array (o.souls.map fun soul => .str soul.text)),
    ("issued_at", .str issued.text)]

instance : LT Cid := ⟨fun a b => a.text < b.text⟩

instance (a b : Cid) : Decidable (a < b) := inferInstanceAs (Decidable (a.text < b.text))

namespace Registry

/-- The objects of a soul's genes, or a failure if it has none. -/
def cidsOf (R : Registry) (soul : SoulId) : Except Error (List Cid) := do
  let genes ← R.readGenes soul
  match Ascending.sorted (genes.map (·.cid)) with
  | [] => throw (.unknownSoul soul)
  | cids => return cids

/-- The manifest of an organism to be. -/
def manifest (R : Registry) (name : String) (souls : List SoulId) (targets : List String) :
    Except Error Manifest :=
  if name.toList.all Text.isBlank then .error .unnamedOrganism
  else do
    let genes ← (SoulId.sorted souls).mapM fun soul => do return (soul, ← R.cidsOf soul)
    return ⟨name, targets, genes⟩

/-- Bundles known souls under a name, in place of what the name stood for. -/
def forge (R : Registry) (name : String) (souls : List SoulId) (targets : List String) :
    Outcome Organism :=
  match R.manifest name souls targets with
  | .error e => (.error e, R)
  | .ok m =>
    let (cid, R) := R.put (Text.Utf8.encode m.json.compact) .organism (some name)
    let organism : Organism := ⟨name, m.genes.map (·.1), cid, targets⟩
    (.ok organism, { R with organisms := upsert (·.name) organism R.organisms })

/-- Records a signed claim about an organism. -/
def insertAttestation (R : Registry) (organism : String) (cid : Cid) (signature : String) :
    Outcome Attestation :=
  match R.organism? organism, R.object? cid with
  | none, _ => (.error (.unknownOrganism organism), R)
  | some _, none => (.error (.unknownObject cid), R)
  | some _, some _ =>
    let row : Attestation := ⟨organism, cid, signature⟩
    (.ok row, { R with attestations := R.attestations ++ [row] })

/-- Stores a statement about an organism as it is now, and attests to it. -/
def attest (R : Registry) (name signature : String) (now : Instant) : Outcome Attestation :=
  match R.organism? name with
  | none => (.error (.unknownOrganism name), R)
  | some organism =>
    let statement := Text.Utf8.encode (organism.statement now).compact
    let (proof, R) := R.put statement .proof (some name)
    R.insertAttestation name proof signature

end Registry

end GeneCalculus
