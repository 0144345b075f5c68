import GeneCalculus.Registry.Tables

/-!
The content store: bytes under the digest of their content. Bytes that are stored again change
nothing, and bytes that are fetched are checked against the name they are asked for by.
-/

namespace GeneCalculus

/-- Whether bytes are the ones that an identifier names. -/
def Cid.verify (cid : Cid) (bytes : List UInt8) : Except Error Unit :=
  let actual := Cid.ofBytes bytes
  if actual = cid then .ok () else .error (.corruptObject cid actual)

namespace Registry

/-- Stores bytes, unless they are there. -/
def put (R : Registry) (bytes : List UInt8) (kind : ObjectKind) (source : Option String) :
    Cid × Registry :=
  let cid := Cid.ofBytes bytes
  match R.object? cid with
  | some _ => (cid, R)
  | none =>
    (cid, { R with objects := R.objects ++ [⟨cid, kind.name, source, bytes.length, bytes⟩] })

/-- The bytes under an identifier, which must still be the ones that it names. -/
def fetch (R : Registry) (cid : Cid) : Except Error (List UInt8) :=
  match R.object? cid with
  | none => .error (.missingObject cid)
  | some object => (cid.verify object.data).map fun _ => object.data

/-- What is known of a stored object besides its bytes. -/
structure ObjectInfo where
  cid : Cid
  kind : ObjectKind
  source : Option String
  size : Nat
  deriving DecidableEq

def objectInfo (R : Registry) (cid : Cid) : Except Error (Option ObjectInfo) :=
  match R.object? cid with
  | none => .ok none
  | some object =>
    match ObjectKind.ofName? object.kind with
    | some kind => .ok (some ⟨object.cid, kind, object.source, object.size⟩)
    | none => .error (.objectKind object.kind)

/-- The expression whose canonical bytes are stored under an identifier, in an arena of its own. -/
def loadExpression (R : Registry) (cid : Cid) : Except Error (NodeId × Arena) := do
  let bytes ← R.fetch cid
  match Canonical.decode bytes .empty with
  | (.ok root, A) => return (root, A)
  | (.error cause, _) => throw (.encoding cause)

/-- Overwrites rows of the object table past all checks, and counts them. -/
def overwrite (R : Registry) (cid : String) (change : StoredObject → StoredObject) :
    Nat × Registry :=
  (R.objects.countP (·.cid.text = cid),
    { R with objects := R.objects.map fun o => if o.cid.text = cid then change o else o })

end Registry

end GeneCalculus
