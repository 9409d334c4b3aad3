import PlanarMath.CommandLine.Run
import PlanarMath.Trace.Stamps
import Std.Time.DateTime.Timestamp

/-!
# The command

Reads a layout from a file or the command line and prints its expression.  All that is decided is
decided in `CommandLine.run`; here files are read beforehand and the trace is written afterwards.
-/

namespace PlanarMath.Main

open CommandLine

/-- How the command is used. -/
def usage : String :=
  "usage: planarmath [-h] [--text TEXT] [--format json|sexpr|text] [--functions FUNCTIONS]\n" ++
  "                  [--max-depth MAX_DEPTH] [--trace TRACE] [path]\n\n" ++
  "Parse a math layout into an expression tree.\n"

/-- What stands at a path, when it can be read. -/
def entryAt? (path : Path) : IO (Option Entry) := do
  let place := (← IO.currentDir) / Path.text path
  if ← place.isDir then return some .directory
  try return some (.file (← IO.FS.readFile place))
  catch _ => return none

/-- The files with all that stands on the way to a path. -/
def gather (files : Files) (path : String) : IO Files := do
  let names := Path.ofText path
  (List.range names.length).foldlM (fun files n => do
    match files.place (names.take (n + 1)) with
    | .error _ => return files
    | .ok place => match ← entryAt? place with
      | some entry => return files.insert place entry
      | none => return files) files

/-- The paths that arguments name. -/
def pathsOf (a : Arguments) : List String :=
  (match a.source with
    | .path path => [path]
    | .text _ => []) ++ a.functions?.toList ++ a.trace?.toList

/-- Makes the directories that a run made, and adds to files what it added. -/
def flush (before after : Files) : IO Unit :=
  after.reverse.forM fun (place, entry) => do
    let old? := before.find? place
    if old? == some entry then return
    match entry with
    | .directory => IO.FS.createDirAll (Path.text place)
    | .file content =>
      let old := match old? with
        | some (.file old) => old
        | _ => ""
      let handle ← IO.FS.Handle.mk (Path.text place) .append
      handle.putStr (String.ofList (content.toList.drop old.length))

/-- A run on the real files. -/
def runHere (a : Arguments) : IO Outcome := do
  let before ← (pathsOf a).foldlM gather []
  let bytes ← IO.getRandomBytes 16
  let seed := bytes.toList.foldl (fun n b => 256 * n + b.toNat) 0
  let now ← Std.Time.Timestamp.now
  let stamp := Trace.stamps seed (now.toNanosecondsSinceUnixEpoch.val / 1000)
  let (outcome, after) := runWith stamp a before
  flush before after
  return outcome

end PlanarMath.Main

open PlanarMath in
/-- Runs the command on the arguments of the process. -/
def main (args : List String) : IO UInt32 := do
  let outcome ← match CommandLine.Arguments.ofList args with
    | .error r => do
      match r with
      | .help => IO.print Main.usage
      | .usage => IO.eprint Main.usage
      pure (CommandLine.Outcome.refused r)
    | .ok a => Main.runHere a
  IO.print outcome.output
  return outcome.code.toUInt32
