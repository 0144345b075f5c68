import GeneCalculus.Error
import GeneCalculus.Settings.Text
import GeneCalculus.Surgery.Arguments
import GeneCalculus.Surgery.Outcome

/-!
A session at the command line, given the contents of the files that it asks for.
-/

namespace GeneCalculus

/-- The contents of a file, or why there are none. -/
abbrev Contents := Except FileFault (List UInt8)

/-- What a session leaves: an exit code, what it shows, what it complains of, and the report that it
wants to be written. -/
structure Response where
  exit : Nat
  shown : String
  complaint : Option String
  report : Option String
  deriving DecidableEq

namespace Response

def success (shown : String) : Response := ⟨0, shown, none, none⟩

def failure (complaint : String) : Response := ⟨1, "", some complaint, none⟩

/-- The response when the report could not be written. -/
def unwritten (r : Response) (path : String) (fault : FileFault) : Response :=
  ⟨1, r.shown, some s!"failed to write {path}: {fault.message}", none⟩

end Response

/-- The text of a file. -/
def Contents.text (c : Contents) : Except FileFault String := do
  (Text.Utf8.decode (← c)).mapError fun _ => .notText

/-- The settings in a file; without a file they are standard. -/
def Settings.load : Option Contents → Except Error Settings
  | none => .ok .standard
  | some file => do
    match Settings.parse (← (Contents.text file).mapError .file) with
    | some settings => return settings
    | none => throw .json

namespace Invocation

/-- What the expression is read from, for a reader. -/
def inputName (i : Invocation) : String := i.input.getD "stdin"

/-- A complaint about settings that could not be loaded. A fault of the file is told twice: as the
error and as its cause. -/
def settingsComplaint : Error → String
  | .file fault => (Error.file fault).message ++ ": " ++ fault.message
  | e => e.message

/-- The response to an invocation whose files have these contents. -/
def respond (i : Invocation) (settings : Option Contents) (input : Contents) : Response :=
  match Settings.load settings with
  | .error e => .failure (settingsComplaint e)
  | .ok settings =>
    match Contents.text input with
    | .error fault => .failure s!"failed to read {i.inputName}: {fault.message}"
    | .ok source =>
      match Surgery.operate source settings.soul with
      | .error e => .failure (Error.syntactic e).message
      | .ok s => ⟨if s.success then 0 else 1, s.text, none, i.report.map fun _ => s.json.pretty⟩

end Invocation

namespace Request

def helpText : String := "Optimize an expression without changing its soul

Usage: soul-surgeon [OPTIONS] [INPUT]

Arguments:
  [INPUT]  Expression file; stdin when omitted

Options:
  -c, --config <CONFIG>  Engine configuration (JSON)
  -r, --report <REPORT>  Also write the report as JSON to this path
  -h, --help             Print help
  -V, --version          Print version
"

def versionText : String := "soul-surgeon 0.1.0\n"

end Request

end GeneCalculus
