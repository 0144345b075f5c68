import GeneCalculus.Text.Blank
import GeneCalculus.Text.Front
import GeneCalculus.Text.Numeral

/-!
Tokens of the surface syntax: parentheses, words and quoted texts. Blanks and comments, which run
from a semicolon to the end of the line, separate tokens and mean nothing. A quoted text that cannot
be read is a token too, so that a fault counts only when a reader comes to it.
-/

namespace GeneCalculus.Surface

/-- Why a quoted text cannot be read. -/
inductive TextFault
  | unterminated
  | unterminatedEscape
  | unknownEscape (c : Char)
  | noBrace
  | badCodePoint (digits : String)
  deriving DecidableEq

def TextFault.message : TextFault → String
  | unterminated => "unterminated string literal"
  | unterminatedEscape => "unterminated escape"
  | unknownEscape c => s!"unknown escape \\{c}"
  | noBrace => "expected '\x7b' after \\u"
  | badCodePoint digits => "invalid unicode escape \\u\x7b" ++ digits ++ "\x7d"

inductive Token
  | opening
  | closing
  | word (s : String)
  | text (s : String)
  | broken (fault : TextFault)
  deriving DecidableEq

/-- What a backslash and one more character stand for. -/
def simpleEscape? : Char → Option Char
  | 'n' => some '\n'
  | 't' => some '\t'
  | 'r' => some '\r'
  | '0' => some '\x00'
  | '\\' => some '\\'
  | '"' => some '"'
  | '\'' => some '\''
  | _ => none

/-- The character with a code point, given in hexadecimal digits. -/
def codePoint? (digits : List Char) : Option Char :=
  (Text.Numeral.uint32? 16 digits).bind fun n =>
    if n.isValidChar then some (Char.ofNat n.toNat) else none

theorem length_dropWhile_le {α : Type} (p : α → Bool) (l : List α) :
    (l.dropWhile p).length ≤ l.length :=
  (List.dropWhile_sublist p).length_le

/-- One character of a quoted text, written as itself or as an escape, and what follows it. -/
def character : (cs : List Char) →
    Except TextFault (Text.Taken Char cs)
  | [] => .error .unterminated
  | ['\\'] => .error .unterminatedEscape
  | '\\' :: 'u' :: '\x7b' :: rest =>
    let digits := rest.takeWhile (· != '\x7d')
    match codePoint? digits with
    | some c => .ok (c, ⟨(rest.dropWhile (· != '\x7d')).drop 1, by
        have := length_dropWhile_le (· != '\x7d') rest
        simp only [List.length_drop, List.length_cons]
        omega⟩)
    | none => .error (.badCodePoint (String.ofList digits))
  | '\\' :: 'u' :: _ => .error .noBrace
  | '\\' :: e :: rest =>
    match simpleEscape? e with
    | some c => .ok ((Text.Taken.one c e rest).behind '\\')
    | none => .error (.unknownEscape e)
  | c :: rest => .ok (.one c c rest)

/-- The text up to the closing quote and what follows it. -/
def quoted : (cs : List Char) →
    Except TextFault (Text.Taken (List Char) cs)
  | '"' :: rest => .ok (.one [] '"' rest)
  | cs =>
    match character cs with
    | .error fault => .error fault
    | .ok (c, ⟨rest, h⟩) =>
      match quoted rest with
      | .error fault => .error fault
      | .ok (text, ⟨after, h'⟩) => .ok (c :: text, ⟨after, Nat.lt_trans h' h⟩)
  termination_by cs => cs.length

/-- Whether a word may hold the character. -/
def isWordChar (c : Char) : Bool :=
  !(Text.isBlank c || c == '(' || c == ')' || c == '"' || c == ';')

/-- The tokens of a text whose first character stands at `offset`, each with its place. -/
def scan (offset : Nat) : List Char → List (Nat × Token)
  | [] => []
  | c :: rest =>
    if Text.isBlank c then scan (offset + 1) rest
    else if c = ';' then
      let line := rest.takeWhile (· != '\n')
      scan (offset + line.length + 2) ((rest.dropWhile (· != '\n')).drop 1)
    else if c = '(' then (offset, .opening) :: scan (offset + 1) rest
    else if c = ')' then (offset, .closing) :: scan (offset + 1) rest
    else if c = '"' then
      match quoted rest with
      | .error fault => [(offset, .broken fault)]
      | .ok (text, ⟨after, _⟩) =>
        (offset, .text (String.ofList text)) ::
          scan (offset + 1 + (rest.length - after.length)) after
    else
      let word := c :: rest.takeWhile isWordChar
      (offset, .word (String.ofList word)) ::
        scan (offset + word.length) (rest.dropWhile isWordChar)
  termination_by cs => cs.length
  decreasing_by
    all_goals simp only [List.length_cons, List.length_drop]
    · omega
    · have := length_dropWhile_le (· != '\n') rest
      omega
    · omega
    · omega
    · omega
    · have := length_dropWhile_le isWordChar rest
      omega

end GeneCalculus.Surface
