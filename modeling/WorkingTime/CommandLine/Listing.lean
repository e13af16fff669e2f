/-
The listing of a calendar's versions.

Each version has a line with its bounds and its parent, a line for each
weekday and a line for each exception.
-/
import WorkingTime.Registry.Basic

namespace WorkingTime.CommandLine

/-- A bound, or what stands for a missing one. -/
def boundText (missing : String) : Option Date → String
  | some d => d.text
  | none => missing

/-- The parent of a version by its name, or by its id if it has no name. -/
def parentText (r : Registry) (v : Version) : String :=
  match v.parent with
  | none => ""
  | some parent =>
      match r.get parent with
      | .ok c => s!" (parent {c.name})"
      | .error _ => s!" (parent {parent})"

/-- The line of a version, which is the `number`-th. -/
def headLine (r : Registry) (number : Nat) (v : Version) : String :=
  let first := boundText "beginning" v.validFrom
  let last := boundText "open" v.expires
  s!"version {number}: {first} .. {last}{parentText r v}"

/-- A text with blanks after it up to `width` characters. -/
def padRight (width : Nat) (text : String) : String :=
  text ++ String.ofList (List.replicate (width - text.length) ' ')

def weekdayLine (v : Version) (w : Weekday) : String :=
  let hours := match v.week.get w with
    | .fixed h => toString h
    | .inherited => "default"
  s!"  {padRight 9 w.name} {hours}"

def exceptionLine (e : ExceptionDay) : String :=
  s!"  {e.date} {e.hours}h {e.category.name}"

def versionLines (r : Registry) (number : Nat) (v : Version) : List String :=
  headLine r number v ::
    (Weekday.all.map (weekdayLine v) ++ v.exceptions.rows.map exceptionLine)

/-- The lines of a calendar, oldest version first. -/
def listing (r : Registry) (c : Calendar) : List String :=
  (c.versions.zipIdx 1).flatMap fun (v, number) => versionLines r number v

end WorkingTime.CommandLine
