import GeneCalculus.Arena.Basic
import GeneCalculus.Bytes.Word
import GeneCalculus.Text.Utf8

/-!
The canonical bytes of an expression. The tree encoding writes each node as a tag and its contents,
parents before children, so it depends on the tree alone. The shared encoding writes each distinct
node once, children before parents and first children first, with children as numbers; it is for
trees too large to write out and is not read back.
-/

namespace GeneCalculus

namespace Canonical

open Bytes

/-- A text as its length in bytes and its bytes. -/
def textBytes (s : String) : List UInt8 :=
  let bs := Text.Utf8.encode s
  ofUInt32 (UInt32.ofNat bs.length) ++ bs

def literalBytes : Literal → List UInt8
  | .int n => 0x10 :: ofInt64 n
  | .bool b => [0x11, if b then 1 else 0]
  | .str s => 0x12 :: textBytes s
  | .nil => [0x13]

def atomBytes : Atom → List UInt8
  | .const v => 0x02 :: literalBytes v
  | .prim name => 0x03 :: textBytes name
  | .ident => [0x04]

def binaryBytes : Binary → List UInt8
  | .app => [0x06]
  | .map => [0x07]
  | .filter => [0x08]
  | .compose => [0x0a]
  | .arith op => [0x0c, op.tag]

def ternaryByte : Ternary → UInt8
  | .reduce => 0x09
  | .choose => 0x0e

/-- The tag of a node and all of it but its children. -/
def header {α : Type} : Node α → List UInt8
  | .var k => 0x01 :: ofUInt32 k
  | .atom a => atomBytes a
  | .lam _ => [0x05]
  | .neg _ => [0x0d]
  | .binary form _ _ => binaryBytes form
  | .ternary form _ _ _ => [ternaryByte form]
  | .focus _ _ _ _ => [0x0b]

end Canonical

namespace Arena

/-- Writes the tree at `i` before `rest`. -/
def encodeOnto (A : Arena) (i : NodeId) (rest : List UInt8) : List UInt8 :=
  match h : A.node? i with
  | none => rest
  | some n =>
    Canonical.header n ++ n.children.attach.foldr (fun ⟨c, hc⟩ rest =>
      have : c < i := A.lt_of_mem_children h hc
      A.encodeOnto c rest) rest
  termination_by i

/-- The tree encoding of the expression at `root`. -/
def encode (A : Arena) (root : NodeId) : List UInt8 := A.encodeOnto root []

/-- The distinct nodes met so far, in the order in which they are finished, and their numbers. -/
structure Numbering where
  order : List (Node NodeId)
  number : Std.HashMap NodeId Nat

/-- Numbers what is under `i` and has no number yet, children first and `i` last. -/
def numberFrom (A : Arena) (i : NodeId) (s : Numbering) : Numbering :=
  if i ∈ s.number then s
  else
    match h : A.node? i with
    | none => s
    | some n =>
      let ⟨order, number⟩ := n.children.attach.foldl (fun s ⟨c, hc⟩ =>
        have : c < i := A.lt_of_mem_children h hc
        A.numberFrom c s) s
      ⟨n :: order, number.insert i number.size⟩
  termination_by i

/-- The shared encoding of the expression at `root`. A child without a number would be written as
the largest word. -/
def encodeShared (A : Arena) (root : NodeId) : List UInt8 :=
  let s := A.numberFrom root ⟨[], ∅⟩
  0xd0 :: s.order.reverse.flatMap fun n =>
    Canonical.header n ++ n.children.flatMap fun c =>
      Bytes.ofUInt32 (UInt32.ofNat (s.number.getD c 0xffffffff))

end Arena

end GeneCalculus
