import GeneCalculus.Canonical.Encoding
import GeneCalculus.Text.Front
import GeneCalculus.Text.Hex

/-!
Reading the tree encoding back. Nodes that were made before an error stay in the arena.
-/

namespace GeneCalculus.Canonical

/-- Why bytes are not the tree encoding of an expression. -/
inductive DecodeError
  | truncated
  | trailing (count : Nat)
  | nodeTag (tag : UInt8)
  | literalTag (tag : UInt8)
  | operatorTag (tag : UInt8)
  | boolByte (byte : UInt8)
  | text (fault : Text.Utf8.Fault)
  deriving DecidableEq

def DecodeError.message : DecodeError → String
  | truncated => "truncated canonical expression"
  | trailing count => s!"{count} trailing bytes after canonical expression"
  | nodeTag tag => "unknown node tag 0x" ++ Text.Hex.encode [tag]
  | literalTag tag => "unknown literal tag 0x" ++ Text.Hex.encode [tag]
  | operatorTag tag => "unknown operator tag 0x" ++ Text.Hex.encode [tag]
  | boolByte byte => "invalid bool byte 0x" ++ Text.Hex.encode [byte]
  | text fault => "invalid utf-8 in canonical string: " ++ fault.message

open Text (Front)

def takeByte : (bs : List UInt8) → Except DecodeError (Front UInt8 bs)
  | [] => .error .truncated
  | b :: rest => .ok (b, ⟨rest, Nat.le_succ _⟩)

def takeBytes (count : Nat) (bs : List UInt8) : Except DecodeError (Front (List UInt8) bs) :=
  let front := bs.take count
  if front.length = count then
    .ok (front, ⟨bs.drop count, by simp only [List.length_drop]; omega⟩)
  else .error .truncated

/-- A number of `count` bytes. -/
def takeWord (count : Nat) (bs : List UInt8) : Except DecodeError (Front Nat bs) :=
  (takeBytes count bs).map (·.map Bytes.value)

def takeText (bs : List UInt8) : Except DecodeError (Front String bs) := do
  (← takeWord 4 bs).andThen fun length rest => do
    (← takeBytes length rest).andThen fun raw rest =>
      match Text.Utf8.decode raw with
      | .ok s => .ok (.whole s rest)
      | .error fault => .error (.text fault)

def takeLiteral (bs : List UInt8) : Except DecodeError (Front Literal bs) := do
  (← takeByte bs).andThen fun tag rest =>
    if tag = 0x10 then
      (takeWord 8 rest).map (·.map fun n => .int (UInt64.ofNat n).toInt64)
    else if tag = 0x11 then do
      (← takeByte rest).andThen fun b rest =>
        if b = 0 then .ok (.whole (.bool false) rest)
        else if b = 1 then .ok (.whole (.bool true) rest)
        else .error (.boolByte b)
    else if tag = 0x12 then (takeText rest).map (·.map .str)
    else if tag = 0x13 then .ok (.whole .nil rest)
    else .error (.literalTag tag)

/-- The shapes that a tag alone gives. -/
def plainShape? (tag : UInt8) : Option (Node Unit) :=
  match tag with
  | 0x04 => some .ident
  | 0x05 => some (.lam ())
  | 0x06 => some (.app () ())
  | 0x07 => some (.map () ())
  | 0x08 => some (.filter () ())
  | 0x09 => some (.reduce () () ())
  | 0x0a => some (.compose () ())
  | 0x0b => some (.focus () () () ())
  | 0x0d => some (.neg ())
  | 0x0e => some (.choose () () ())
  | _ => none

/-- Reads what follows a tag, up to the children. -/
def takeShape (tag : UInt8) (bs : List UInt8) : Except DecodeError (Front (Node Unit) bs) :=
  if tag = 0x01 then (takeWord 4 bs).map (·.map fun k => .var (UInt32.ofNat k))
  else if tag = 0x02 then (takeLiteral bs).map (·.map .const)
  else if tag = 0x03 then (takeText bs).map (·.map .prim)
  else if tag = 0x0c then do
    (← takeByte bs).andThen fun op rest =>
      match Operator.ofTag? op with
      | some op => .ok (.whole (.arith op () ()) rest)
      | none => .error (.operatorTag op)
  else
    match plainShape? tag with
    | some shape => .ok (.whole shape bs)
    | none => .error (.nodeTag tag)

/-- A shape with the given children. -/
def fill (shape : Node Unit) (children : List NodeId) : Node NodeId :=
  (shape.traverse children fun _ _ cs => (cs.headD 0, cs.tail)).1

mutual

/-- Reads one tree from the front of `bs` into the arena. -/
def decodeTree (bs : List UInt8) (A : Arena) : Except DecodeError (Front NodeId bs) × Arena :=
  match bs with
  | [] => (.error .truncated, A)
  | tag :: body =>
    match takeShape tag body with
    | .error e => (.error e, A)
    | .ok (shape, ⟨rest, h⟩) =>
      match decodeTrees shape.children.length rest A with
      | (.error e, A) => (.error e, A)
      | (.ok (children, ⟨rest', h'⟩), A) =>
        let (i, A) := A.intern (fill shape children)
        (.ok (i, ⟨rest', by simp only [List.length_cons]; omega⟩), A)
  termination_by (bs.length, 0)

/-- Reads `count` trees one after the other. -/
def decodeTrees (count : Nat) (bs : List UInt8) (A : Arena) :
    Except DecodeError (Front (List NodeId) bs) × Arena :=
  match count with
  | 0 => (.ok (.whole [] bs), A)
  | count + 1 =>
    match decodeTree bs A with
    | (.error e, A) => (.error e, A)
    | (.ok (i, ⟨rest, h⟩), A) =>
      match decodeTrees count rest A with
      | (.error e, A) => (.error e, A)
      | (.ok (is, ⟨rest', h'⟩), A) => (.ok (i :: is, ⟨rest', Nat.le_trans h' h⟩), A)
  termination_by (bs.length, count + 1)
  decreasing_by
    · exact .right _ (Nat.succ_pos _)
    · rcases Nat.lt_or_eq_of_le h with less | equal
      · exact .left _ _ less
      · exact equal ▸ .right _ (Nat.lt_succ_self _)

end

/-- Reads the tree encoding of one expression, which must be all of `bs`. -/
def decode (bs : List UInt8) (A : Arena) : Except DecodeError NodeId × Arena :=
  match decodeTree bs A with
  | (.error e, A) => (.error e, A)
  | (.ok (i, ⟨[], _⟩), A) => (.ok i, A)
  | (.ok (_, ⟨rest, _⟩), A) => (.error (.trailing rest.length), A)

end GeneCalculus.Canonical
