import GeneCalculus.Surgery.Session

/-!
The command line.
-/

namespace GeneCalculus.CommandLine

def faultOf : IO.Error → FileFault
  | .noFileOrDirectory _ _ _ => .missing
  | .inappropriateType _ _ _ => .directory
  | e => .other (toString e)

def readFile (path : String) : IO Contents := do
  try
    return .ok (← IO.FS.readBinFile path).toList
  catch e => return .error (faultOf e)

/-- All that is left to read, behind what was read. -/
partial def readOn (stream : IO.FS.Stream) (front : ByteArray) : IO ByteArray := do
  let bytes ← stream.read 65536
  if bytes.isEmpty then return front else readOn stream (front ++ bytes)

/-- Shows a response and answers its exit code. -/
def finish (r : Response) : IO UInt32 := do
  IO.print r.shown
  if let some complaint := r.complaint then IO.eprintln s!"Error: {complaint}"
  return r.exit.toUInt32

def operate (i : Invocation) : IO UInt32 := do
  let settings ← i.settings.mapM fun path => readFile path
  match Settings.load settings with
  | .error e => finish (.failure (Invocation.settingsComplaint e))
  | .ok _ =>
    let input ← match i.input with
      | some path => readFile path
      | none => do
        let bytes ← readOn (← IO.getStdin) .empty
        pure (.ok bytes.toList)
    let response := i.respond settings input
    match i.report, response.report with
    | some path, some text =>
      try
        IO.FS.writeFile path text
        finish response
      catch e => finish (response.unwritten path (faultOf e))
    | _, _ => finish response

end GeneCalculus.CommandLine

open GeneCalculus in
def main (args : List String) : IO UInt32 := do
  match Request.ofArgs? args with
  | none =>
    IO.eprintln "error: the arguments are not understood; try '--help'"
    return 2
  | some .help => CommandLine.finish (.success Request.helpText)
  | some .version => CommandLine.finish (.success Request.versionText)
  | some (.operate i) => CommandLine.operate i
