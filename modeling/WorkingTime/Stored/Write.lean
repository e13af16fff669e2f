/-
The stored form of calendars and commands, as JSON values.

A record is an object with its fields in a fixed order.  A parent or a bound
that is missing is left out; the hours and the parent of a command are then
`null`, and so is a weekday rule that is the parent's.
-/
import WorkingTime.Command.Effect
import WorkingTime.Json.Basic

namespace WorkingTime

/-- A member that is left out when there is no value for it. -/
def Json.memberIfSome {α : Type} (key : String) (write : α → Json) :
    Option α → List (String × Json)
  | some a => [(key, write a)]
  | none => []

/-! ## Parts of calendars -/

def CalendarId.toJson (id : CalendarId) : Json := .number id.value

def Date.toJson (d : Date) : Json := .text d.text

def Weekday.toJson (w : Weekday) : Json := .text w.name

def Hours.toJson (h : Hours) : Json := .number h.value

def EnteredHours.toJson (h : EnteredHours) : Json := .number h.value

/-- A rule is stored as its hours, or as `null` when the parent decides. -/
def DayRule.toJson (rule : DayRule) : Json := Json.nullable Hours.toJson rule.hours?

/-- A weekday table is stored as a record of seven rules. -/
def WeekTable.toJson (t : WeekTable) : Json :=
  .object
    [("monday", t.monday.toJson), ("tuesday", t.tuesday.toJson),
     ("wednesday", t.wednesday.toJson), ("thursday", t.thursday.toJson),
     ("friday", t.friday.toJson), ("saturday", t.saturday.toJson),
     ("sunday", t.sunday.toJson)]

def Category.toJson (c : Category) : Json :=
  .object
    [("name", .text c.name), ("color", .text c.color),
     ("resource_specific", .bool c.resourceSpecific)]

/-- An exception is stored as a record with its date. -/
def ExceptionDay.toJson (e : ExceptionDay) : Json :=
  .object
    [("date", e.date.toJson), ("hours", e.hours.toJson),
     ("exception_type", e.category.toJson)]

/-! ## Calendars and registries -/

/-- A version is stored as a record that lists its exceptions by date. -/
def Version.toJson (v : Version) : Json :=
  .object <|
    [("hours", v.week.toJson),
     ("exceptions", .list (v.exceptions.rows.map ExceptionDay.toJson))] ++
    Json.memberIfSome "parent" CalendarId.toJson v.parent ++
    Json.memberIfSome "valid_from" Date.toJson v.validFrom ++
    Json.memberIfSome "expiring_date" Date.toJson v.expires

/-- A calendar is stored as a record that lists its versions, oldest first. -/
def Calendar.toJson (c : Calendar) : Json :=
  .object
    [("id", c.id.toJson), ("name", .text c.name),
     ("versions", .list (c.versions.map Version.toJson))]

/-- A registry is stored as a record that lists its calendars by id. -/
def Registry.toJson (r : Registry) : Json :=
  .object
    [("next_id", r.nextId.toJson),
     ("calendars", .list (r.calendars.rows.map Calendar.toJson))]

/-! ## Kinds of dates -/

def DayType.label : DayType → String
  | normal => "NORMAL"
  | zeroHours => "ZERO_HOURS"
  | ownException => "OWN_EXCEPTION"
  | ancestorException => "ANCESTOR_EXCEPTION"

def DayType.toJson (t : DayType) : Json := .text t.label

/-! ## Commands -/

def CommandKind.tag : CommandKind → String
  | createCalendar => "create_calendar"
  | deriveCalendar => "derive_calendar"
  | copyCalendar => "copy_calendar"
  | renameCalendar => "rename_calendar"
  | removeCalendar => "remove_calendar"
  | setHours => "set_hours"
  | addException => "add_exception"
  | removeException => "remove_exception"
  | updateException => "update_exception"
  | setParent => "set_parent"
  | newVersion => "new_version"
  | setExpiringDate => "set_expiring_date"
  | setValidFrom => "set_valid_from"

namespace Command

def members : Command → List (String × Json)
  | createCalendar name => [("name", .text name)]
  | deriveCalendar parent name => [("parent", .text parent), ("name", .text name)]
  | copyCalendar source name => [("source", .text source), ("name", .text name)]
  | renameCalendar calendar name => [("calendar", .text calendar), ("name", .text name)]
  | removeCalendar calendar => [("calendar", .text calendar)]
  | setHours calendar weekday hours =>
      [("calendar", .text calendar), ("weekday", weekday.toJson),
       ("hours", Json.nullable EnteredHours.toJson hours)]
  | addException calendar date hours category
  | updateException calendar date hours category =>
      [("calendar", .text calendar), ("date", date.toJson), ("hours", hours.toJson),
       ("exception_type", category.toJson)]
  | removeException calendar date => [("calendar", .text calendar), ("date", date.toJson)]
  | setParent calendar parent =>
      [("calendar", .text calendar), ("parent", Json.nullable Json.text parent)]
  | newVersion calendar effectiveFrom =>
      [("calendar", .text calendar), ("effective_from", effectiveFrom.toJson)]
  | setExpiringDate calendar date reference
  | setValidFrom calendar date reference =>
      [("calendar", .text calendar), ("date", date.toJson), ("reference", reference.toJson)]

/-- A command is stored as a record whose first field is its kind. -/
def toJson (command : Command) : Json :=
  .object (("command", .text command.kind.tag) :: command.members)

end Command

end WorkingTime
