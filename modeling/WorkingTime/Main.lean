/-
The program: hands the files and the arguments to `CommandLine.run`, and its
outcome to the system.
-/
import WorkingTime.CommandLine.Session

namespace WorkingTime

/-- What stands at a path, as far as reading shows it: what cannot be read
though it is there counts as a folder. -/
def readEntry (path : String) : IO CommandLine.Entry := do
  try return .file (← IO.FS.readFile path)
  catch
    | .noFileOrDirectory .. => return .free
    | _ => return .folder

/-- What stands at these paths; nothing is known of others. -/
def readFiles (paths : List String) : IO CommandLine.Files := do
  let entries ← paths.mapM fun path => return (path, ← readEntry path)
  return fun path => (entries.lookup path).getD .free

/-- The outcome of a run, after its file is written.  When no file can be made
at a path where nothing stands, the outcome is the one for such a path. -/
def carryOut (environment : Option String) (files : CommandLine.Files)
    (arguments : List String) : IO CommandLine.Outcome := do
  let outcome := CommandLine.run environment files arguments
  match outcome.written with
  | none => return outcome
  | some (path, text) =>
      try
        IO.FS.writeFile path text
        return outcome
      catch e =>
        if (files path).isThere then throw e
        let blocked : CommandLine.Files := fun p =>
          if p == path then .unreachable .missing else files p
        return CommandLine.run environment blocked arguments

end WorkingTime

open WorkingTime

def main (arguments : List String) : IO UInt32 := do
  let environment ← IO.getEnv "WORKCAL_FILE"
  let paths := match CommandLine.read environment arguments with
    | .ok i => i.reads
    | .error _ => []
  let outcome ← carryOut environment (← readFiles paths) arguments
  for line in outcome.output do
    IO.println line
  if outcome.exitCode == 2 then
    IO.eprintln ("\n".intercalate CommandLine.usage)
  return outcome.exitCode.toUInt32
