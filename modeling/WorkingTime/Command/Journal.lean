/-
The journal of a command: what happens while it is carried out, as data.

Some events are noted before the step they announce and stand in the journal
of a command that then fails, so the journal is a function of the registry
before the command and not of its result.  How an event is worded, and which
events are shown, is for the command line.
-/
import WorkingTime.Command.Effect

namespace WorkingTime

/-- Something that happens while commands are carried out. -/
inductive Event where
  | created (name : String) (id : CalendarId)
  | derived (name : String) (id parent : CalendarId)
  | copied (name : String) (id source : CalendarId)
  | removed (id : CalendarId)
  | parentChanged (calendar : CalendarId) (parent : Option CalendarId)
  | cycleRejected (calendar parent : CalendarId)
  | settingHours (calendar : String) (weekday : Weekday) (rule : DayRule)
  | addingException (calendar : String) (e : ExceptionDay)
  | removingException (calendar : String) (date : Date)
  | updatingException (calendar : String) (date : Date) (hours : EnteredHours)
  | versionStarted (calendar : String) (start : Date) (versions : Nat)
  | boundaryMoved (calendar : String) (previous : Option Date) (boundary : Date)
  | applying (kind : CommandKind)
  | batchApplied (commands : Nat)
deriving DecidableEq

/-! ## Events of one calendar -/

namespace Calendar

def versionEvents (c : Calendar) (start : Date) : List Event :=
  match c.newVersion start with
  | .ok new => [.versionStarted c.name start new.versions.length]
  | .error _ => []

/-- What is noted when the end of the version in effect on `reference` moves. -/
def expiryEvents (c : Calendar) (d reference : Date) : List Event :=
  match c.setExpires d reference with
  | .ok _ => [.boundaryMoved c.name (c.versionAt reference).expires d]
  | .error _ => []

/-- What is noted when the start of the version in effect on `reference`
moves; the boundary is the end of the version before. -/
def startEvents (c : Calendar) (d reference : Date) : List Event :=
  match c.setValidFrom d reference, c.superseded[c.versionIndexAt reference - 1]? with
  | .ok _, some earlier => [.boundaryMoved c.name earlier.expires d]
  | _, _ => []

end Calendar

/-! ## Events of one command -/

namespace Command

/-- The events of a step that needs a calendar to be found first. -/
def whenFound {α : Type} (found : Except RegistryError α) (events : α → List Event) :
    List Event :=
  match found with
  | .ok a => events a
  | .error _ => []

/-- The events of a command after it is announced. -/
def stepEvents (r : Registry) (command : Command) : List Event :=
  match command with
  | createCalendar name =>
      whenFound (r.create name) fun (id, _) => [.created (Text.trimmed name) id]
  | deriveCalendar parent name =>
      whenFound (r.idOf parent) fun parentId =>
        whenFound (r.derive parentId name) fun (id, _) =>
          [.derived (Text.trimmed name) id parentId]
  | copyCalendar source name =>
      whenFound (r.idOf source) fun sourceId =>
        whenFound (r.copy sourceId name) fun (id, _) =>
          [.copied (Text.trimmed name) id sourceId]
  | renameCalendar .. => []
  | removeCalendar calendar =>
      whenFound (r.idOf calendar) fun id =>
        whenFound (r.remove id) fun _ => [.removed id]
  | setHours calendar weekday hours =>
      whenFound (r.find calendar) fun c =>
        whenFound (asRule (DayRule.enter (hours.map (·.value)))) fun rule =>
          [.settingHours c.name weekday rule]
  | addException calendar date hours category =>
      whenFound (r.find calendar) fun c =>
        whenFound (asRule (ExceptionDay.enter date hours.value category)) fun e =>
          [.addingException c.name e]
  | removeException calendar date =>
      whenFound (r.find calendar) fun c => [.removingException c.name date]
  | updateException calendar date hours _ =>
      whenFound (r.find calendar) fun c => [.updatingException c.name date hours]
  | setParent calendar none =>
      whenFound (r.idOf calendar) fun id => [.parentChanged id none]
  | setParent calendar (some parent) =>
      whenFound (r.idOf calendar) fun id =>
        whenFound (r.idOf parent) fun parentId =>
          if r.reaches parentId id then [.cycleRejected id parentId]
          else [.parentChanged id (some parentId)]
  | newVersion calendar effectiveFrom =>
      whenFound (r.find calendar) fun c => c.versionEvents effectiveFrom
  | setExpiringDate calendar date reference =>
      whenFound (r.find calendar) fun c => c.expiryEvents date reference
  | setValidFrom calendar date reference =>
      whenFound (r.find calendar) fun c => c.startEvents date reference

def events (r : Registry) (command : Command) : List Event :=
  .applying command.kind :: command.stepEvents r

end Command

/-! ## Events of a batch -/

namespace Registry

/-- The events of commands one after the other, up to the first that fails;
`total` of them make the whole batch. -/
def batchEvents (total : Nat) (r : Registry) : List Command → List Event
  | [] => [.batchApplied total]
  | command :: rest =>
      command.events r ++
        match r.apply command with
        | .ok (r, _) => r.batchEvents total rest
        | .error _ => []

def journal (r : Registry) (commands : List Command) : List Event :=
  r.batchEvents commands.length commands

end Registry

end WorkingTime
