import GeneCalculus.Decimal.Shortest
import GeneCalculus.Text.Hex

/-!
JSON values and their written forms: compact, and with two blanks of indentation for each level.
-/

namespace GeneCalculus

/-- A number as it was written: a natural or a negative integer of 64 bits, or a double. -/
inductive Json.Number
  | natural (n : Nat)
  | negative (n : Int)
  | real (x : Float)

/-- A value. A number out of range, and a text or a key with half a surrogate pair, are read as such
and matter only to a reader that wants them. -/
inductive Json
  | null
  | bool (b : Bool)
  | number (n : Option Json.Number)
  | text (s : Option String)
  | array (items : List Json)
  | object (members : List (Option String × Json))

namespace Json

def nat (n : Nat) : Json := .number (some (.natural n))

def float (x : Float) : Json := .number (some (.real x))

def str (s : String) : Json := .text (some s)

def record (members : List (String × Json)) : Json := .object (members.map fun m => (some m.1, m.2))

/-- One character of a text between its quotes. -/
def escape (c : Char) : List Char :=
  match c with
  | '"' => ['\\', '"']
  | '\\' => ['\\', '\\']
  | '\n' => ['\\', 'n']
  | '\r' => ['\\', 'r']
  | '\t' => ['\\', 't']
  | '\x08' => ['\\', 'b']
  | '\x0c' => ['\\', 'f']
  | c =>
    if c.toNat < 0x20 then
      ['\\', 'u', '0', '0', Text.Hex.digit (c.toNat / 16), Text.Hex.digit (c.toNat % 16)]
    else [c]

def quote (s : String) : String := String.ofList ('"' :: (s.toList.flatMap escape ++ ['"']))

/-- A double with the fewest digits that are read back, positional if its first digit stands from
the fifth place behind the point to the sixteenth before it. What is not finite is no number. -/
def realText (x : Float) : String :=
  match Decimal.Kind.of x with
  | .undefined | .infinite _ => "null"
  | .finite negative b =>
    (if negative then "-" else "") ++
      if b.m = 0 then "0.0"
      else
        let d := Decimal.shortest .even b
        let lead : Int := d.exponent + ((Decimal.digitsOf d.digits).length - 1 : Nat)
        if -5 ≤ lead ∧ lead < 16 then Decimal.positional d ".0" else Decimal.scientific d

def Number.text : Number → String
  | .natural n => toString n
  | .negative n => toString n
  | .real x => realText x

/-- The text of a value that is no array or object. -/
def leafText : Json → String
  | .null => "null"
  | .bool true => "true"
  | .bool false => "false"
  | .number n => (n.map Number.text).getD "null"
  | .text s => quote (s.getD "")
  | .array _ | .object _ => ""

mutual

/-- The value without blanks. -/
def compact : Json → String
  | .array items => "[" ++ compactItems items ++ "]"
  | .object members => "\x7b" ++ compactMembers members ++ "\x7d"
  | leaf => leaf.leafText

def compactItems : List Json → String
  | [] => ""
  | [item] => item.compact
  | item :: items => item.compact ++ "," ++ compactItems items

def compactMembers : List (Option String × Json) → String
  | [] => ""
  | [(key, value)] => quote (key.getD "") ++ ":" ++ value.compact
  | (key, value) :: members =>
    quote (key.getD "") ++ ":" ++ value.compact ++ "," ++ compactMembers members

end

/-- A new line under `depth` levels. -/
def newline (depth : Nat) : String := "\n" ++ String.ofList (List.replicate (2 * depth) ' ')

mutual

/-- The value with a line for each member, at `depth` levels. -/
def indented (depth : Nat) : Json → String
  | .array [] => "[]"
  | .object [] => "\x7b\x7d"
  | .array items => "[" ++ indentedItems (depth + 1) items ++ newline depth ++ "]"
  | .object members => "\x7b" ++ indentedMembers (depth + 1) members ++ newline depth ++ "\x7d"
  | leaf => leaf.leafText

def indentedItems (depth : Nat) : List Json → String
  | [] => ""
  | [item] => newline depth ++ item.indented depth
  | item :: items => newline depth ++ item.indented depth ++ "," ++ indentedItems depth items

def indentedMembers (depth : Nat) : List (Option String × Json) → String
  | [] => ""
  | [(key, value)] => newline depth ++ quote (key.getD "") ++ ": " ++ value.indented depth
  | (key, value) :: members =>
    newline depth ++ quote (key.getD "") ++ ": " ++ value.indented depth ++ "," ++
      indentedMembers depth members

end

def pretty (v : Json) : String := v.indented 0

end Json

end GeneCalculus
