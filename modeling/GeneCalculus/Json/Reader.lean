import GeneCalculus.Json.Number
import GeneCalculus.Text.Front

/-!
Reading JSON. A text holds one value with nothing but blanks around it.
-/

namespace GeneCalculus.Json

/-- What was read from the front of `cs`, of which at least one character was taken. -/
abbrev Read (α : Type) (cs : List Char) := Option (Text.Taken α cs)

def isSpace (c : Char) : Bool := c == ' ' || c == '\n' || c == '\t' || c == '\r'

def skip (cs : List Char) : List Char := cs.dropWhile isSpace

theorem length_skip_le (cs : List Char) : (skip cs).length ≤ cs.length :=
  (List.dropWhile_sublist _).length_le

/-- A piece of a text: a character, or a unit of sixteen bits that was written as an escape. -/
inductive Piece
  | char (c : Char)
  | unit (n : Nat)

/-- The characters of pieces, unless half a surrogate pair stands alone. -/
def assemble : List Piece → Option (List Char)
  | [] => some []
  | .char c :: rest => (assemble rest).map (c :: ·)
  | .unit high :: .unit low :: rest =>
    if 0xd800 ≤ high ∧ high < 0xdc00 then
      if 0xdc00 ≤ low ∧ low < 0xe000 then
        (assemble rest).map (Char.ofNat (0x10000 + (high - 0xd800) * 0x400 + (low - 0xdc00)) :: ·)
      else none
    else if 0xdc00 ≤ high ∧ high < 0xe000 then none
    else (assemble (.unit low :: rest)).map (Char.ofNat high :: ·)
  | .unit n :: rest =>
    if 0xd800 ≤ n ∧ n < 0xe000 then none else (assemble rest).map (Char.ofNat n :: ·)

/-- The character of a two-character escape. -/
def escaped? : Char → Option Char
  | '"' => some '"'
  | '\\' => some '\\'
  | '/' => some '/'
  | 'b' => some '\x08'
  | 'f' => some '\x0c'
  | 'n' => some '\n'
  | 'r' => some '\r'
  | 't' => some '\t'
  | _ => none

/-- The pieces of a text up to its closing quote, which is taken too. -/
def pieces : (cs : List Char) → Read (List Piece) cs
  | [] => none
  | '"' :: rest => some (.one [] '"' rest)
  | '\\' :: 'u' :: a :: b :: c :: d :: rest => do
    let a ← Text.Hex.value? a
    let b ← Text.Hex.value? b
    let c ← Text.Hex.value? c
    let d ← Text.Hex.value? d
    let (ps, ⟨after, h⟩) ← pieces rest
    return (.unit (((a * 16 + b) * 16 + c) * 16 + d) :: ps,
      ⟨after, by simp only [List.length_cons]; omega⟩)
  | '\\' :: e :: rest => do
    let c ← escaped? e
    let (ps, ⟨after, h⟩) ← pieces rest
    return (.char c :: ps, ⟨after, by simp only [List.length_cons]; omega⟩)
  | c :: rest =>
    if c.toNat < 0x20 ∨ c = '\\' then none
    else do
      let (ps, ⟨after, h⟩) ← pieces rest
      return (.char c :: ps, ⟨after, by simp only [List.length_cons]; omega⟩)

/-- A text whose opening quote has been taken. -/
def readText (cs : List Char) : Read (Option String) cs := do
  let (ps, rest) ← pieces cs
  return ((assemble ps).map String.ofList, rest)

def isDigit (c : Char) : Bool := c.isDigit

/-- The values of the digits that a text begins with. -/
def leadingDigits (cs : List Char) : List Nat := (cs.takeWhile isDigit).map fun c => c.toNat - 48

/-- The exponent that a text begins with, if any: whether it is negative and its value. The outer
option is a fault: a mark without digits. -/
def leadingExponent : List Char → Option (Option (Bool × Nat) × List Char)
  | e :: rest =>
    if e = 'e' ∨ e = 'E' then
      let down := rest.head? == some '-'
      let digits := if down ∨ rest.head? = some '+' then rest.tail else rest
      match leadingDigits digits with
      | [] => none
      | ds => some (some (down, ds.foldl (fun v d => v * 10 + d) 0), digits.dropWhile isDigit)
    else some (none, e :: rest)
  | [] => some (none, [])

/-- A number whose sign has been taken. -/
def readNumber (negative : Bool) (cs : List Char) : Option (Option Number × List Char) := do
  let whole := leadingDigits cs
  if whole.isEmpty ∨ (whole.head? = some 0 ∧ 1 < whole.length) then none
  else
    let rest := cs.dropWhile isDigit
    let (part, rest) ← match rest with
      | '.' :: rest =>
        let part := leadingDigits rest
        if part.isEmpty then none else some (part, rest.dropWhile isDigit)
      | rest => some ([], rest)
    let (exponent, rest) ← leadingExponent rest
    return (Number.ofDigits negative whole part exponent, rest)

/-- The rest behind a word, if the text begins with it. -/
def behind? (word cs : List Char) : Option (List Char) :=
  if word.isPrefixOf cs then some (cs.drop word.length) else none

/-- A value that is no text, array or object. -/
def readLeaf (cs : List Char) : Option (Json × List Char) :=
  match behind? "null".toList cs, behind? "true".toList cs, behind? "false".toList cs with
  | some rest, _, _ => some (.null, rest)
  | _, some rest, _ => some (.bool true, rest)
  | _, _, some rest => some (.bool false, rest)
  | none, none, none =>
    match cs with
    | '-' :: cs => (readNumber true cs).map fun (n, rest) => (.number n, rest)
    | cs => (readNumber false cs).map fun (n, rest) => (.number n, rest)

mutual

/-- Reads a value from the front of a text. -/
def readValue (cs : List Char) : Read Json cs :=
  match h : skip cs with
  | [] => none
  | c :: body =>
    have shorter : body.length < cs.length := by
      have := length_skip_le cs
      rw [h, List.length_cons] at this
      omega
    if c = '"' then do
      let (s, ⟨rest, h'⟩) ← readText body
      return (.text s, ⟨rest, by omega⟩)
    else if c = '[' then
      match h' : skip body with
      | ']' :: rest => some (.array [], ⟨rest, by
          have := length_skip_le body
          rw [h', List.length_cons] at this
          omega⟩)
      | _ => do
        let (items, ⟨rest, h'⟩) ← readItems body
        return (.array items, ⟨rest, by omega⟩)
    else if c = '\x7b' then
      match h' : skip body with
      | '\x7d' :: rest => some (.object [], ⟨rest, by
          have := length_skip_le body
          rw [h', List.length_cons] at this
          omega⟩)
      | _ => do
        let (members, ⟨rest, h'⟩) ← readMembers body
        return (.object members, ⟨rest, by omega⟩)
    else do
      let (v, rest) ← readLeaf (c :: body)
      if h' : rest.length < cs.length then return (v, ⟨rest, h'⟩) else none
  termination_by (cs.length, 0)

/-- Reads the items of an array up to its closing bracket. -/
def readItems (cs : List Char) : Read (List Json) cs := do
  let (v, ⟨rest, h⟩) ← readValue cs
  match h' : skip rest with
  | ',' :: rest' =>
    have shorter : rest'.length < cs.length := by
      have := length_skip_le rest
      rw [h', List.length_cons] at this
      omega
    let (vs, ⟨after, h''⟩) ← readItems rest'
    return (v :: vs, ⟨after, by omega⟩)
  | ']' :: rest' => return ([v], ⟨rest', by
      have := length_skip_le rest
      rw [h', List.length_cons] at this
      omega⟩)
  | _ => none
  termination_by (cs.length, 1)

/-- Reads the members of an object up to its closing brace. -/
def readMembers (cs : List Char) : Read (List (Option String × Json)) cs :=
  match h : skip cs with
  | '"' :: body => do
    have shorter : body.length < cs.length := by
      have := length_skip_le cs
      rw [h, List.length_cons] at this
      omega
    let (key, ⟨rest, h₁⟩) ← readText body
    match h₂ : skip rest with
    | ':' :: rest₂ =>
      have shorter₂ : rest₂.length < cs.length := by
        have := length_skip_le rest
        rw [h₂, List.length_cons] at this
        omega
      let (v, ⟨rest₃, h₃⟩) ← readValue rest₂
      match h₄ : skip rest₃ with
      | ',' :: rest₄ =>
        have shorter₄ : rest₄.length < cs.length := by
          have := length_skip_le rest₃
          rw [h₄, List.length_cons] at this
          omega
        let (ms, ⟨after, h₅⟩) ← readMembers rest₄
        return ((key, v) :: ms, ⟨after, by omega⟩)
      | '\x7d' :: rest₄ => return ([(key, v)], ⟨rest₄, by
          have := length_skip_le rest₃
          rw [h₄, List.length_cons] at this
          omega⟩)
      | _ => none
    | _ => none
  | _ => none
  termination_by (cs.length, 1)

end

/-- The value that is the whole of a text. -/
def parse (s : String) : Option Json := do
  let (v, ⟨rest, _⟩) ← readValue s.toList
  if (skip rest).isEmpty then return v else none

end GeneCalculus.Json
