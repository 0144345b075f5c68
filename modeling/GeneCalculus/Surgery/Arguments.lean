/-!
Arguments of the command line.
-/

namespace GeneCalculus

/-- Where the settings and the expression are read from, and where the report is written to. Without
a file for the expression it is read from the standard input. -/
structure Invocation where
  settings : Option String
  report : Option String
  input : Option String
  deriving DecidableEq

/-- What the arguments ask for. -/
inductive Request
  | operate (invocation : Invocation)
  | help
  | version
  deriving DecidableEq

namespace Arguments

/-- The arguments that take a value. -/
inductive Setting
  | settings | report
  deriving DecidableEq

/-- Gives a setting its value. A value must not be empty, and a setting has at most one. -/
def Setting.give (s : Setting) (value : String) (i : Invocation) : Option Invocation :=
  if value.isEmpty then none
  else
    match s, i.settings, i.report with
    | settings, none, _ => some { i with settings := some value }
    | report, _, none => some { i with report := some value }
    | _, _, _ => none

/-- Takes an argument that belongs to no setting: the file with the expression. -/
def giveInput (value : String) (i : Invocation) : Option Invocation :=
  if value.isEmpty then none
  else
    match i.input with
    | none => some { i with input := some value }
    | some _ => none

/-- What a single argument is. -/
inductive Word
  /-- `--`, behind which no argument is special. -/
  | rest
  | plain (value : String)
  | setting (s : Setting) (value : Option String)
  | help
  | version
  | unknown

/-- An argument that begins with two dashes, without these: a name, and a value behind an equals
sign. -/
def longWord (cs : List Char) : Word :=
  let name := String.ofList (cs.takeWhile (· ≠ '='))
  let value := match cs.dropWhile (· ≠ '=') with
    | _ :: value => some (String.ofList value)
    | [] => none
  match name, value with
  | "config", value => .setting .settings value
  | "report", value => .setting .report value
  | "help", none => .help
  | "version", none => .version
  | _, _ => .unknown

/-- An argument that begins with one dash, without it: a letter, and a value behind it. -/
def shortWord : List Char → Word
  | c :: cs =>
    let value := match cs with
      | [] => none
      | '=' :: value => some (String.ofList value)
      | value => some (String.ofList value)
    match c with
    | 'c' => .setting .settings value
    | 'r' => .setting .report value
    | 'h' => .help
    | 'V' => .version
    | _ => .unknown
  | [] => .unknown

def word (arg : String) : Word :=
  match arg.toList with
  | ['-', '-'] => .rest
  | '-' :: '-' :: name => longWord name
  | ['-'] => .plain arg
  | '-' :: letters => shortWord letters
  | _ => .plain arg

/-- Reads arguments from left to right. A setting without a value of its own takes the next
argument, which must be plain. -/
def read (i : Invocation) : List String → Option Request
  | [] => some (.operate i)
  | arg :: args =>
    match word arg with
    | .rest => (args.foldlM (fun i value => giveInput value i) i).map .operate
    | .plain value => do read (← giveInput value i) args
    | .setting s (some value) => do read (← s.give value i) args
    | .setting s none =>
      match args with
      | [] => none
      | next :: args =>
        match word next with
        | .plain value => do read (← s.give value i) args
        | _ => none
    | .help => some .help
    | .version => some .version
    | .unknown => none

end Arguments

/-- What arguments ask for; nothing if they are not understood. -/
def Request.ofArgs? (args : List String) : Option Request := Arguments.read ⟨none, none, none⟩ args

end GeneCalculus
