/-
Carrying out the tasks of the command line.

A run of the program reads at most two files and writes at most one, the
document, and that only at its end.  So a run is a function of its arguments
and of the files it sees, and its outcome says what to print, what to write
and how to exit; the program proper only hands these on.
-/
import WorkingTime.CommandLine.Arguments
import WorkingTime.CommandLine.Files
import WorkingTime.CommandLine.Listing
import WorkingTime.CommandLine.Log
import WorkingTime.Stored.Commands

namespace WorkingTime.CommandLine

/-- A line of the output. -/
inductive Line where
  | answer (text : String)
  | log (line : LogLine)

/-- What comes of a task. -/
structure Result where
  lines : List Line := []
  /-- The new text of the document, if it is written. -/
  written : Option String := none
  /-- Why the task failed, if it did. -/
  failure : Option String := none

/-! ## Failures -/

/-- The wording of a failure and its cause, if it has one. -/
def chain (e : RegistryError) : String :=
  match e.cause? with
  | some cause => s!"{e.message}: {cause.message}"
  | none => e.message

namespace Result

def failed (reason : String) : Result :=
  { failure := some reason }

def answered (answers : List String) : Result :=
  { lines := answers.map .answer }

/-- A result with lines before its own. -/
def after (lines : List Line) (r : Result) : Result :=
  { r with lines := lines ++ r.lines }

end Result

/-! ## Files -/

/-- Reads a file of a kind, and goes on with what it holds. -/
def withFile {α : Type} (files : Files) (kind path : String)
    (parse : String → Except ReadError α) (next : α → Result) : Result :=
  match (files path).read with
  | .error fault => .failed s!"Failed to read {kind} file {path}: {fault.message}"
  | .ok text =>
      match parse text with
      | .error e => .failed s!"Invalid {kind} file {path}: {e.message}"
      | .ok a => next a

def storeLine (level : Level) (message path : String) (r : Registry) : Line :=
  .log ⟨level, "workcal::store", message, [("path", path), ("calendars", toString r.size)]⟩

/-- Reads the document and goes on with the registry. -/
def withRegistry (files : Files) (path : String) (next : Registry → Result) : Result :=
  withFile files "calendar" path Registry.parse fun r =>
    (next r).after [storeLine .debug "Loaded calendars" path r]

def documentText (r : Registry) : String :=
  r.toJson.pretty ++ "\n"

def save (files : Files) (path : String) (r : Registry) : Result :=
  match (files path).writeFault? with
  | some fault => .failed s!"Failed to write calendar file {path}: {fault.message}"
  | none =>
      { lines := [storeLine .info "Saved calendars" path r], written := some (documentText r) }

/-! ## Tasks -/

def initialise (files : Files) (path : String) (force : Bool) : Result :=
  if (files path).isThere && !force then
    .failed s!"{path} already exists; use --force to overwrite it"
  else save files path .empty

def answer (r : Registry) : Query → Except RegistryError (List String)
  | .capacity calendar d => do
      return [toString (← r.capacityAt (← r.idOf calendar) d)]
  | .classify calendar d => do
      return [(← r.classify (← r.idOf calendar) d).label]
  | .hours calendar start finish => do
      return [toString (← r.workableHours (← r.idOf calendar) start finish)]
  | .week calendar d => do
      return [toString (← r.weekHours (← r.idOf calendar) d)]
  | .nonWorkable calendar start finish => do
      return (← r.nonWorkableDays (← r.idOf calendar) start finish).map Date.text
  | .versions calendar => do
      return listing r (← r.find calendar)

def ownLine (level : Level) (message : String) (values : List (String × String)) : Line :=
  .log ⟨level, "workcal", message, values⟩

/-- Applies a batch to the registry of the document. -/
def applyBatch (files : Files) (path : String) (dryRun : Bool) (r : Registry)
    (batch : List Command) : Result :=
  let events := (r.journal batch).map fun e => Line.log e.line
  match r.applyAll batch with
  | .error e => (Result.failed (chain e)).after events
  | .ok (new, actions) =>
      let records := actions.map fun a => ownLine .info a.text []
      let last : Result :=
        if dryRun then
          { lines := [ownLine .info "Dry run, nothing written"
              [("commands", toString actions.length)]] }
        else save files path new
      last.after (events ++ records)

def perform (files : Files) (path : String) : Task → Result
  | .init force => initialise files path force
  | .query query =>
      withRegistry files path fun r =>
        match answer r query with
        | .ok lines => .answered lines
        | .error e => .failed (chain e)
  | .apply commands dryRun =>
      withRegistry files path fun r =>
        withFile files "command" commands Command.parseList (applyBatch files path dryRun r)

/-! ## Runs -/

/-- What a run of the program does. -/
structure Outcome where
  exitCode : Nat
  /-- The lines it prints. -/
  output : List String
  /-- The path and the text of the file it writes, if it writes one. -/
  written : Option (String × String)

/-- The text of a line, if it is shown. -/
def Line.shown? (verbosity : Int) : Line → Option String
  | answer text => some text
  | log line => if line.isShown verbosity then some line.text else none

/-- The outcome of a result: a failure is logged last. -/
def Result.outcome (i : Invocation) (r : Result) : Outcome :=
  let failure := r.failure.toList.map fun reason => ownLine .error reason []
  { exitCode := if r.failure.isSome then 1 else 0
    output := (r.lines ++ failure).filterMap (·.shown? i.verbosity)
    written := r.written.map (i.document, ·) }

/-- The files a run may read. -/
def Invocation.reads (i : Invocation) : List String :=
  match i.task with
  | .apply commands _ => [i.document, commands]
  | _ => [i.document]

def usage : List String :=
  ["Usage: workcal [-f FILE] [-v | -q] VERB",
   "  init [--force]",
   "  capacity CALENDAR DATE",
   "  classify CALENDAR DATE",
   "  hours CALENDAR START END",
   "  week CALENDAR DATE",
   "  non-workable CALENDAR START END",
   "  versions CALENDAR",
   "  apply COMMANDS [--dry-run]"]

def Halt.outcome : Halt → Outcome
  | misuse => ⟨2, [], none⟩
  | help => ⟨0, usage, none⟩
  | version => ⟨0, ["workcal 0.1.0"], none⟩

/-- The outcome of a run with these arguments, given the document the
environment names and the files. -/
def run (environment : Option String) (files : Files) (arguments : List String) : Outcome :=
  match read environment arguments with
  | .error halt => halt.outcome
  | .ok i => (perform files i.document i.task).outcome i

end WorkingTime.CommandLine
