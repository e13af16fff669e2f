/-
Reading commands from their stored form.

The member `command` names the kind and may stand anywhere among the others,
so these are put aside until the kind is known, and must be fit for that.  A
command may also be a list: its kind, then its fields in their order.
-/
import WorkingTime.Stored.Read

namespace WorkingTime

namespace Command

/-! ## Fields -/

/-- The fields read so far, of any kind of command. -/
structure Slots where
  name : Option String := none
  parent : Option String := none
  source : Option String := none
  calendar : Option String := none
  weekday : Option Weekday := none
  hours : Option EnteredHours := none
  date : Option Date := none
  reference : Option Date := none
  effectiveFrom : Option Date := none
  category : Option Category := none

namespace Slots

def nameField : Field Slots :=
  .required "name" Reading.asText fun s a => { s with name := some a }

def parentField : Field Slots :=
  .required "parent" Reading.asText fun s a => { s with parent := some a }

/-- Another parent, or none. -/
def newParentField : Field Slots :=
  .optionally "parent" (Reading.asNullable Reading.asText) fun s a => { s with parent := a }

def sourceField : Field Slots :=
  .required "source" Reading.asText fun s a => { s with source := some a }

def calendarField : Field Slots :=
  .required "calendar" Reading.asText fun s a => { s with calendar := some a }

def weekdayField : Field Slots :=
  .required "weekday" Weekday.ofReading fun s a => { s with weekday := some a }

/-- The hours of an exception. -/
def hoursField : Field Slots :=
  .required "hours" EnteredHours.ofReading fun s a => { s with hours := some a }

/-- The hours of a weekday, or none. -/
def ruleField : Field Slots :=
  .optionally "hours" (Reading.asNullable EnteredHours.ofReading) fun s a => { s with hours := a }

/-- The date of an exception or of a boundary. -/
def dateField : Field Slots :=
  .required "date" Date.ofReading fun s a => { s with date := some a }

/-- A date of the version to move. -/
def referenceField : Field Slots :=
  .required "reference" Date.ofReading fun s a => { s with reference := some a }

def effectiveFromField : Field Slots :=
  .required "effective_from" Date.ofReading fun s a => { s with effectiveFrom := some a }

def categoryField : Field Slots :=
  .required "exception_type" Category.ofReading fun s a => { s with category := some a }

end Slots

end Command

namespace CommandKind

open Command.Slots

/-- The fields of a kind of command, in their order. -/
def fields : CommandKind → List (Field Command.Slots)
  | createCalendar => [nameField]
  | deriveCalendar => [parentField, nameField]
  | copyCalendar => [sourceField, nameField]
  | renameCalendar => [calendarField, nameField]
  | removeCalendar => [calendarField]
  | setHours => [calendarField, weekdayField, ruleField]
  | addException | updateException => [calendarField, dateField, hoursField, categoryField]
  | removeException => [calendarField, dateField]
  | setParent => [calendarField, newParentField]
  | newVersion => [calendarField, effectiveFromField]
  | setExpiringDate | setValidFrom => [calendarField, dateField, referenceField]

/-- The command of a kind with these fields, or the first one missing. -/
def build (kind : CommandKind) (s : Command.Slots) : Except String Command := do
  let name := Field.slot "name" s.name
  let parent := Field.slot "parent" s.parent
  let source := Field.slot "source" s.source
  let calendar := Field.slot "calendar" s.calendar
  let weekday := Field.slot "weekday" s.weekday
  let hours := Field.slot "hours" s.hours
  let date := Field.slot "date" s.date
  let reference := Field.slot "reference" s.reference
  let effectiveFrom := Field.slot "effective_from" s.effectiveFrom
  let category := Field.slot "exception_type" s.category
  match kind with
  | createCalendar => return .createCalendar (← name)
  | deriveCalendar => return .deriveCalendar (← parent) (← name)
  | copyCalendar => return .copyCalendar (← source) (← name)
  | renameCalendar => return .renameCalendar (← calendar) (← name)
  | removeCalendar => return .removeCalendar (← calendar)
  | setHours => return .setHours (← calendar) (← weekday) s.hours
  | addException => return .addException (← calendar) (← date) (← hours) (← category)
  | removeException => return .removeException (← calendar) (← date)
  | updateException => return .updateException (← calendar) (← date) (← hours) (← category)
  | setParent => return .setParent (← calendar) s.parent
  | newVersion => return .newVersion (← calendar) (← effectiveFrom)
  | setExpiringDate => return .setExpiringDate (← calendar) (← date) (← reference)
  | setValidFrom => return .setValidFrom (← calendar) (← date) (← reference)

def form (kind : CommandKind) : Record Command.Slots Command :=
  ⟨kind.fields, {}, kind.build⟩

def ofTag (tag : String) : Except ReadError CommandKind :=
  match all.find? (·.tag == tag) with
  | some kind => .ok kind
  | none => .error (.unknownVariant tag (all.map (·.tag)))

def ofReading (value : Reading) : Except ReadError CommandKind := do
  ofTag (← value.asText)

end CommandKind

namespace Command

/-! ## Commands -/

/-- The kind named among the members, if one is, and the other members; a
value put aside may have `room` lists and objects inside each other. -/
def sort (room : Nat) (kind : Option CommandKind) :
    List (Option String × Reading) →
      Except ReadError (Option CommandKind × List (Option String × Reading))
  | [] => .ok (kind, [])
  | (none, _) :: _ => .error .malformed
  | (some key, value) :: rest =>
      if key = "command" then
        match kind with
        | some _ => .error (.duplicateField key)
        | none => do sort room (some (← CommandKind.ofReading value)) rest
      else if value.isKeepable room then do
        let (kind, others) ← sort room kind rest
        return (kind, (some key, value) :: others)
      else .error .malformed

/-- The number of lists and objects that may be inside each other. -/
def depthLimit : Nat := 127

/-- Reads a command that is inside `depth` lists. -/
def ofReading (depth : Nat) : Reading → Except ReadError Command
  | .object members closed => do
      let (kind, others) ← sort (depthLimit - depth - 1) none members
      unless closed do throw .malformed
      match kind with
      | some kind => kind.form.ofMembers others true
      | none => throw (.missingField "command")
  | .list items closed => do
      match items with
      | [] => throw (if closed then .missingField "command" else .malformed)
      | tag :: fields =>
          let kind ← CommandKind.ofReading tag
          unless fields.all (·.isKeepable (depthLimit - depth - 1)) && closed do throw .malformed
          kind.form.ofItems fields true
  | _ => .error .malformed

def listOfReading : Reading → Except ReadError (List Command) :=
  Reading.asList (ofReading 1)

def parseList (text : String) : Except ReadError (List Command) :=
  JsonText.decode listOfReading text

end Command

end WorkingTime
