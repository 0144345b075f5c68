import GeneCalculus.Bytes.Word
import GeneCalculus.Digest.Sha256
import GeneCalculus.Text.Quoted
import GeneCalculus.Text.Utf8

/-!
Identifiers. A soul names what an expression means: four bytes of a digest of its canonical bytes. A
content identifier names stored bytes by their whole digest.
-/

namespace GeneCalculus

/-- Why a text is no identifier. -/
inductive IdentifierError
  | soulPrefix (text : String)
  | soulDigits (text : String)
  | cidPrefix (text : String)
  | cidDigits (text : String)
  deriving DecidableEq

def IdentifierError.message : IdentifierError → String
  | soulPrefix s => "soul " ++ Text.Quoted.quote s ++ " is missing the λ prefix"
  | soulDigits s =>
    "soul " ++ Text.Quoted.quote s ++ " must be λ followed by 8 lowercase hex characters"
  | cidPrefix s => "cid " ++ Text.Quoted.quote s ++ " is missing the sha256: prefix"
  | cidDigits s => "cid " ++ Text.Quoted.quote s ++ " must carry 64 hex characters"

/-- The name of a meaning. One that stands for canonical bytes is a `λ` and eight lower-case
hexadecimal digits; one that comes from elsewhere may be any text until it is parsed. -/
structure SoulId where
  text : String
  deriving DecidableEq, Hashable, Inhabited

namespace SoulId

/-- The soul of a digest: its first four bytes. -/
def ofDigest (digest : List UInt8) : SoulId := ⟨"λ" ++ Text.Hex.encode (digest.take 4)⟩

/-- The soul of canonical bytes. The digest covers a mark, the number of bytes, and the bytes. -/
def ofCanonical (bytes : List UInt8) : SoulId :=
  ofDigest (Sha256.digest
    (Text.Utf8.encode "SOUL:v1" ++ (Bytes.littleEndian 8 bytes.length ++ bytes)))

def parse (s : String) : Except IdentifierError SoulId :=
  match s.toList with
  | 'λ' :: digits =>
    if digits.length = 8 ∧ digits.all fun c => c.isDigit || ('a' ≤ c && c ≤ 'f') then .ok ⟨s⟩
    else .error (.soulDigits s)
  | _ => .error (.soulPrefix s)

/-- The text of a soul is one that is parsed. -/
def WellFormed (s : SoulId) : Prop := (parse s.text).isOk

instance : DecidablePred WellFormed := fun s => inferInstanceAs (Decidable (parse s.text).isOk)

instance : LT SoulId := ⟨fun a b => a.text < b.text⟩

instance (a b : SoulId) : Decidable (a < b) := inferInstanceAs (Decidable (a.text < b.text))

end SoulId

/-- The name of stored bytes: `sha256:` and sixty-four lower-case hexadecimal digits. -/
structure Cid where
  text : String
  deriving DecidableEq, Hashable, Inhabited

namespace Cid

def ofBytes (bytes : List UInt8) : Cid := ⟨"sha256:" ++ Text.Hex.encode (Sha256.digest bytes)⟩

/-- Reads an identifier; its digits may be of either case. -/
def parse (s : String) : Except IdentifierError Cid :=
  match s.toList with
  | 's' :: 'h' :: 'a' :: '2' :: '5' :: '6' :: ':' :: digits =>
    if digits.length = 64 ∧ digits.all fun c => (Text.Hex.value? c).isSome then
      .ok ⟨String.ofList (s.toList.map Char.toLower)⟩
    else .error (.cidDigits s)
  | _ => .error (.cidPrefix s)

end Cid

end GeneCalculus
