import GeneCalculus.Surface.Token
import GeneCalculus.Text.Quoted

/-!
S-expressions: words, quoted texts and lists of them. `read` builds the one that a text holds, with
the lists that are still open on a stack.
-/

namespace GeneCalculus.Surface

inductive Sexp
  | word (s : String)
  | text (s : String)
  | list (items : List Sexp)

mutual

/-- The form in which messages show an S-expression. -/
def Sexp.shown : Sexp → String
  | .word s => "Atom(" ++ Text.Quoted.quote s ++ ")"
  | .text s => "Str(" ++ Text.Quoted.quote s ++ ")"
  | .list items => "List([" ++ Sexp.shownAll items ++ "])"

/-- Members of a list, separated by commas. -/
def Sexp.shownAll : List Sexp → String
  | [] => ""
  | [item] => item.shown
  | item :: items => item.shown ++ ", " ++ Sexp.shownAll items

end

/-- Why a text is not the source of an expression. -/
inductive SyntaxError
  | endOfInput
  | unclosed
  | unexpectedClose (offset : Nat)
  | trailing (offset : Nat)
  | text (fault : TextFault)
  | emptyList
  | noArguments
  | arity (form : String) (expected actual : Nat)
  | applicationArity
  | indexRange (word : String)
  | letBinder (item : Sexp)
  | binder (item : Sexp)
  | binderList (item : Sexp)

def SyntaxError.message : SyntaxError → String
  | endOfInput => "unexpected end of input"
  | unclosed => "unclosed '('"
  | unexpectedClose offset => s!"unexpected ')' at offset {offset}"
  | trailing offset => s!"unexpected trailing input at offset {offset}"
  | text fault => fault.message
  | emptyList => "empty list"
  | noArguments => "application without arguments"
  | arity form expected actual => s!"{form} expects {expected} arguments, got {actual}"
  | applicationArity => "app needs a function and an argument"
  | indexRange word => s!"free variable {word} is out of range"
  | letBinder item => "let binder must be a name, got " ++ item.shown
  | binder item => "binder must be a name, got " ++ item.shown
  | binderList item => "invalid binder list " ++ item.shown

/-- Puts a finished S-expression where it belongs: into the innermost open list, or, if none is
open, at the end of the input. `more` reads on with a list open. -/
def Sexp.place (item : Sexp) (stack : List (List Sexp)) (rest : List (Nat × Token))
    (more : List (List Sexp) → Except SyntaxError Sexp) : Except SyntaxError Sexp :=
  match stack, rest with
  | open_ :: outer, _ => more ((item :: open_) :: outer)
  | [], [] => .ok item
  | [], (offset, _) :: _ => .error (.trailing offset)

/-- Reads on inside the open lists of `stack`, innermost first and each in reverse. -/
def Sexp.read (stack : List (List Sexp)) : List (Nat × Token) → Except SyntaxError Sexp
  | [] => .error (if stack.isEmpty then .endOfInput else .unclosed)
  | (offset, token) :: rest =>
    match token with
    | .opening => Sexp.read ([] :: stack) rest
    | .closing =>
      match stack with
      | [] => .error (.unexpectedClose offset)
      | items :: outer => (Sexp.list items.reverse).place outer rest fun s => Sexp.read s rest
    | .word s => (Sexp.word s).place stack rest fun s => Sexp.read s rest
    | .text s => (Sexp.text s).place stack rest fun s => Sexp.read s rest
    | .broken fault => .error (.text fault)

/-- The S-expression that is the whole of a text. -/
def Sexp.ofString (s : String) : Except SyntaxError Sexp := Sexp.read [] (scan 0 s.toList)

end GeneCalculus.Surface
