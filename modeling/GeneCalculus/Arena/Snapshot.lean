import GeneCalculus.Arena.Reachable
import GeneCalculus.Arena.Validity
import GeneCalculus.Bytes.Word
import GeneCalculus.Text.Utf8

/-!
Snapshots: the nodes under a root and the root, as bytes. Numbers are written with the low byte
first, lengths in eight bytes, and each choice between kinds as its number in four. What follows a
snapshot is not looked at.
-/

namespace GeneCalculus.Snapshot

open Bytes

/-- Why bytes do not begin with a snapshot. -/
inductive SnapshotError
  | endOfInput
  | endOfText
  | variant (index count : Nat)
  | boolByte (byte : UInt8)
  | text (fault : Text.Utf8.Fault)
  | malformed (cause : Malformed)
  deriving DecidableEq

def SnapshotError.message : SnapshotError → String
  | endOfInput => "io error: unexpected end of file"
  | endOfText => "io error: "
  | variant index count =>
    s!"invalid value: integer \x60{index}\x60, expected variant index 0 <= i < {count}"
  | boolByte byte => s!"invalid u8 while decoding bool, expected 0 or 1, found {byte.toNat}"
  | text fault => "string is not valid utf8: " ++ fault.message
  | malformed cause => cause.message

def wordBytes (n : Nat) : List UInt8 := littleEndian 4 n

def textBytes (s : String) : List UInt8 :=
  let bs := Text.Utf8.encode s
  littleEndian 8 bs.length ++ bs

def literalBytes : Literal → List UInt8
  | .int n => wordBytes 0 ++ ofInt64 n
  | .bool b => wordBytes 1 ++ [if b then 1 else 0]
  | .str s => wordBytes 2 ++ textBytes s
  | .nil => wordBytes 3

/-- The number of a node's kind and all of it but its children. -/
def header {α : Type} : Node α → List UInt8
  | .var k => wordBytes 0 ++ ofUInt32 k
  | .const v => wordBytes 1 ++ literalBytes v
  | .prim name => wordBytes 2 ++ textBytes name
  | .ident => wordBytes 3
  | .lam _ => wordBytes 4
  | .app _ _ => wordBytes 5
  | .map _ _ => wordBytes 6
  | .filter _ _ => wordBytes 7
  | .reduce _ _ _ => wordBytes 8
  | .compose _ _ => wordBytes 9
  | .focus _ _ _ _ => wordBytes 10
  | .arith op _ _ => wordBytes 11 ++ wordBytes op.tag.toNat
  | .neg _ => wordBytes 12
  | .choose _ _ _ => wordBytes 13

def nodeBytes (n : Node NodeId) : List UInt8 := header n ++ n.children.flatMap wordBytes

/-- A list of nodes and a root. -/
def bytes (nodes : List (Node NodeId)) (root : NodeId) : List UInt8 :=
  littleEndian 8 nodes.length ++ nodes.flatMap nodeBytes ++ wordBytes root

/-- Reading from the front of bytes. -/
abbrev Read := StateT (List UInt8) (Except SnapshotError)

def readNumber (count : Nat) : Read Nat := fun bs =>
  match take? count bs with
  | some x => .ok x
  | none => .error .endOfInput

def readText : Read String := do
  let length ← readNumber 8
  let bs ← get
  let front := bs.take length
  if front.length < length then throw .endOfText
  set (bs.drop length)
  match Text.Utf8.decode front with
  | .ok s => return s
  | .error fault => throw (.text fault)

/-- The number of a kind, out of `count` kinds. -/
def readKind (count : Nat) : Read (Fin count) := do
  let index ← readNumber 4
  if h : index < count then return ⟨index, h⟩ else throw (.variant index count)

def readBool : Read Bool := do
  match ← readNumber 1 with
  | 0 => return false
  | 1 => return true
  | n => throw (.boolByte (UInt8.ofNat n))

def readLiteral : Read Literal := do
  match ← readKind 4 with
  | 0 => return .int (UInt64.ofNat (← readNumber 8)).toInt64
  | 1 => return .bool (← readBool)
  | 2 => return .str (← readText)
  | 3 => return .nil

def readOperator : Read Operator := do return Operator.all[← readKind 10]

def readChild : Read NodeId := readNumber 4

def readNode : Read (Node NodeId) := do
  match ← readKind 14 with
  | 0 => return .var (UInt32.ofNat (← readNumber 4))
  | 1 => return .const (← readLiteral)
  | 2 => return .prim (← readText)
  | 3 => return .ident
  | 4 => return .lam (← readChild)
  | 5 => return .app (← readChild) (← readChild)
  | 6 => return .map (← readChild) (← readChild)
  | 7 => return .filter (← readChild) (← readChild)
  | 8 => return .reduce (← readChild) (← readChild) (← readChild)
  | 9 => return .compose (← readChild) (← readChild)
  | 10 => return .focus (← readChild) (← readChild) (← readChild) (← readChild)
  | 11 => return .arith (← readOperator) (← readChild) (← readChild)
  | 12 => return .neg (← readChild)
  | 13 => return .choose (← readChild) (← readChild) (← readChild)

def readNodes : Nat → Read (List (Node NodeId))
  | 0 => return []
  | count + 1 => do return (← readNode) :: (← readNodes count)

/-- The nodes and the root that bytes begin with. -/
def readAll : Read (List (Node NodeId) × NodeId) := do
  let nodes ← readNodes (← readNumber 8)
  return (nodes, ← readNumber 4)

/-- Interns nodes that are all new. -/
def internNew (A : Arena) : List (Node NodeId) → Except Malformed Arena
  | [] => .ok A
  | n :: rest =>
    if A.index.contains n then .error .repeatedNode else internNew (A.intern n).2 rest

end GeneCalculus.Snapshot

namespace GeneCalculus

namespace Arena

/-- The snapshot of the expression at `root`. -/
def snapshot (A : Arena) (root : NodeId) : List UInt8 :=
  let (root, B) := A.extract root
  Snapshot.bytes B.nodes.toList root

/-- The arena and the root of a snapshot. -/
def ofSnapshot (bs : List UInt8) : Except Snapshot.SnapshotError (NodeId × Arena) := do
  let ((nodes, root), _) ← Snapshot.readAll bs
  (validateNodes nodes root).mapError .malformed
  let A ← (Snapshot.internNew empty nodes).mapError .malformed
  return (root, A)

end Arena

end GeneCalculus
