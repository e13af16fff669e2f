/-
Commands: edits of a registry as data, with calendars referred to by name.

A command says what to do and nothing of when it is possible; the kinds of
commands are apart from the commands, since documents, action records and
journals name the kind.
-/
import WorkingTime.Capacity

namespace WorkingTime

/-- The thirteen kinds of commands. -/
inductive CommandKind where
  | createCalendar | deriveCalendar | copyCalendar | renameCalendar | removeCalendar
  | setHours | addException | removeException | updateException
  | setParent | newVersion | setExpiringDate | setValidFrom
deriving DecidableEq

namespace CommandKind

/-- All kinds, in the order in which documents list them. -/
def all : List CommandKind :=
  [createCalendar, deriveCalendar, copyCalendar, renameCalendar, removeCalendar,
   setHours, addException, removeException, updateException,
   setParent, newVersion, setExpiringDate, setValidFrom]

/-- The name of a kind in action records. -/
def title : CommandKind → String
  | createCalendar => "CreateCalendar"
  | deriveCalendar => "DeriveCalendar"
  | copyCalendar => "CopyCalendar"
  | renameCalendar => "RenameCalendar"
  | removeCalendar => "RemoveCalendar"
  | setHours => "SetHours"
  | addException => "AddException"
  | removeException => "RemoveException"
  | updateException => "UpdateException"
  | setParent => "SetParent"
  | newVersion => "NewVersion"
  | setExpiringDate => "SetExpiringDate"
  | setValidFrom => "SetValidFrom"

end CommandKind

/-- An edit of a registry. -/
inductive Command where
  /-- Make a calendar without rules. -/
  | createCalendar (name : String)
  /-- Make a calendar that inherits everything. -/
  | deriveCalendar (parent name : String)
  /-- Make a calendar with the current rules of another one. -/
  | copyCalendar (source name : String)
  | renameCalendar (calendar name : String)
  /-- Take out a calendar from which no other one derives. -/
  | removeCalendar (calendar : String)
  /-- Fix the hours of a weekday, or leave them to the parent. -/
  | setHours (calendar : String) (weekday : Weekday) (hours : Option EnteredHours)
  | addException (calendar : String) (date : Date) (hours : EnteredHours) (category : Category)
  | removeException (calendar : String) (date : Date)
  /-- Replace hours and category of an exception. -/
  | updateException (calendar : String) (date : Date) (hours : EnteredHours)
      (category : Category)
  /-- Give the current version another parent, or none. -/
  | setParent (calendar : String) (parent : Option String)
  /-- Close the current version and open another one. -/
  | newVersion (calendar : String) (effectiveFrom : Date)
  /-- Move the end of the version in effect on `reference`. -/
  | setExpiringDate (calendar : String) (date reference : Date)
  /-- Move the start of the version in effect on `reference`. -/
  | setValidFrom (calendar : String) (date reference : Date)
deriving DecidableEq

namespace Command

def kind : Command → CommandKind
  | createCalendar .. => .createCalendar
  | deriveCalendar .. => .deriveCalendar
  | copyCalendar .. => .copyCalendar
  | renameCalendar .. => .renameCalendar
  | removeCalendar .. => .removeCalendar
  | setHours .. => .setHours
  | addException .. => .addException
  | removeException .. => .removeException
  | updateException .. => .updateException
  | setParent .. => .setParent
  | newVersion .. => .newVersion
  | setExpiringDate .. => .setExpiringDate
  | setValidFrom .. => .setValidFrom

/-- The calendar a command is about: the one it makes or the one it edits. -/
def subject : Command → String
  | createCalendar name | deriveCalendar _ name | copyCalendar _ name => name
  | renameCalendar calendar _ | removeCalendar calendar | setHours calendar ..
  | addException calendar .. | removeException calendar _ | updateException calendar ..
  | setParent calendar _ | newVersion calendar _ | setExpiringDate calendar ..
  | setValidFrom calendar .. => calendar

end Command

/-! ## Records of what was done -/

/-- What a command did. -/
structure Action where
  /-- The name of the kind of command. -/
  name : String
  /-- The calendar as the command names it. -/
  calendar : String
  details : Option String
deriving DecidableEq

def Action.text (a : Action) : String :=
  match a.details with
  | some details => s!"{a.name} [{a.calendar}]: {details}"
  | none => s!"{a.name} [{a.calendar}]"

end WorkingTime
