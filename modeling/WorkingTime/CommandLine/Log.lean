/-
Log lines: the wording of events, and which of them are shown.

A line has a level, the part of the program that speaks, a message and named
values.  Control characters in a message are spelled out, so that a text from
a document cannot act on a terminal; the named values are left as they are.
-/
import WorkingTime.Command.Journal
import WorkingTime.Json.Basic

namespace WorkingTime

/-- How important a line is. -/
inductive Level where
  | error | warn | info | debug
deriving DecidableEq

namespace Level

/-- The name of a level, five characters wide. -/
def label : Level → String
  | error => "ERROR"
  | warn => " WARN"
  | info => " INFO"
  | debug => "DEBUG"

/-- The least verbosity at which a level is shown. -/
def threshold : Level → Int
  | error => -2
  | warn => -1
  | info => 0
  | debug => 1

end Level

/-- A line of the log. -/
structure LogLine where
  level : Level
  /-- The part of the program that speaks. -/
  speaker : String
  message : String
  values : List (String × String)

namespace LogLine

/-! ## Control characters -/

/-- A character of a message: the control characters by which a text could act
on a terminal are spelled out. -/
def spell (c : Char) : List Char :=
  let hex (n : Nat) : List Char := [Json.hexDigit (n / 16), Json.hexDigit (n % 16)]
  if c == '\x1b' || c == '\x07' || c == '\x08' || c == '\x0c' || c == '\x7f' then
    ['\\', 'x'] ++ hex c.toNat
  else if 0x80 ≤ c.toNat && c.toNat ≤ 0x9F then
    ['\\', 'u', '{'] ++ hex c.toNat ++ ['}']
  else [c]

def spelled (message : String) : String :=
  String.ofList (message.toList.flatMap spell)

/-! ## Text -/

def text (l : LogLine) : String :=
  let values := String.join (l.values.map fun v => s!" {v.1}={v.2}")
  s!"{l.level.label} {l.speaker}: {spelled l.message}{values}"

def isShown (verbosity : Int) (l : LogLine) : Bool :=
  l.level.threshold ≤ verbosity

end LogLine

/-! ## The wording of events -/

namespace Event

def optional {α : Type} (text : α → String) : Option α → String
  | some a => s!"Some({text a})"
  | none => "None"

def ruleText (rule : DayRule) : String :=
  match rule with
  | .fixed h => s!"Explicit({h})"
  | .inherited => "Default"

def registryLine (level : Level) (message : String) (values : List (String × String)) : LogLine :=
  ⟨level, "workcal::registry", message, values⟩

def calendarLine (level : Level) (message calendar : String) (values : List (String × String)) :
    LogLine :=
  ⟨level, "workcal::calendar", message, ("calendar", calendar) :: values⟩

def line : Event → LogLine
  | created name id =>
      registryLine .info "Created calendar" [("calendar", name), ("id", toString id)]
  | derived name id parent =>
      registryLine .info "Created derived calendar"
        [("calendar", name), ("id", toString id), ("parent", toString parent)]
  | copied name id source =>
      registryLine .info "Copied calendar"
        [("calendar", name), ("id", toString id), ("source", toString source)]
  | removed id => registryLine .info "Removed calendar" [("id", toString id)]
  | parentChanged calendar parent =>
      registryLine .info "Changed calendar parent"
        [("calendar", toString calendar),
         ("parent", optional (fun id => s!"CalendarId({id.value})") parent)]
  | cycleRejected calendar parent =>
      registryLine .warn "Rejected cyclic parent assignment"
        [("calendar", toString calendar), ("parent", toString parent)]
  | settingHours calendar weekday rule =>
      calendarLine .debug "Setting weekday hours" calendar
        [("weekday", weekday.title), ("hours", ruleText rule)]
  | addingException calendar e =>
      calendarLine .debug "Adding exception day" calendar
        [("date", toString e.date), ("hours", toString e.hours)]
  | removingException calendar date =>
      calendarLine .debug "Removing exception day" calendar [("date", toString date)]
  | updatingException calendar date hours =>
      calendarLine .debug "Updating exception day" calendar
        [("date", toString date), ("hours", toString hours)]
  | versionStarted calendar start versions =>
      calendarLine .info "Created new calendar version" calendar
        [("effective_from", toString start), ("versions", toString versions)]
  | boundaryMoved calendar previous boundary =>
      calendarLine .info "Moved calendar version boundary" calendar
        [("from", optional Date.text previous), ("to", toString boundary)]
  | applying kind =>
      ⟨.debug, "workcal::apply", "Applying command", [("command", s!"\"{kind.title}\"")]⟩
  | batchApplied commands =>
      ⟨.debug, "workcal::apply", "Applied command batch", [("commands", toString commands)]⟩

end Event

end WorkingTime
