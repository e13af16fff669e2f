/-
Reading calendars from their stored form.

Each type has the reader of its record beside the slots of its fields.  What
ties fields together is checked when the record is complete: that exceptions
have distinct dates, that versions divide time, that calendars fit together.
-/
import WorkingTime.Stored.Record
import WorkingTime.Stored.Write

namespace WorkingTime

/-! ## Numbers, dates, names -/

def CalendarId.ofReading : Reading → Except ReadError CalendarId :=
  Reading.asNat CalendarId.ofNat?

/-- Reads a number of hours that can be kept. -/
def Hours.ofReading : Reading → Except ReadError Hours :=
  Reading.asNat Hours.ofNat?

def EnteredHours.ofReading : Reading → Except ReadError EnteredHours :=
  Reading.asInt EnteredHours.ofInt?

def Date.ofReading (value : Reading) : Except ReadError Date := do
  (Date.parse (← value.asText)).mapError .rule

def Weekday.ofReading (value : Reading) : Except ReadError Weekday := do
  (Weekday.parse (← value.asText)).mapError .rule

/-- Reads a weekday rule from its hours or from `null`. -/
def DayRule.ofReading (value : Reading) : Except ReadError DayRule :=
  (fun | some h => fixed h | none => inherited) <$> value.asNullable Hours.ofReading

/-! ## Kinds of dates -/

namespace DayType

def all : List DayType :=
  [normal, zeroHours, ownException, ancestorException]

def ofLabel (label : String) : Except ReadError DayType :=
  match all.find? (·.label == label) with
  | some t => .ok t
  | none => .error (.unknownVariant label (all.map (·.label)))

/-- Reads the name of a kind, or an object that has it as its only key, with
the value `null`. -/
def ofReading : Reading → Except ReadError DayType
  | .object ((some key, value) :: rest) closed => do
      let t ← ofLabel key
      match value, rest, closed with
      | .null, [], true => return t
      | _, _, _ => throw .malformed
  | value => do ofLabel (← value.asText)

end DayType

/-! ## Weekday tables -/

namespace WeekTable

/-- The field of a weekday. -/
def field (w : Weekday) : Field WeekTable :=
  .optionally w.name DayRule.ofReading fun t rule => t.set w rule

/-- The record; no field is needed. -/
def form : Record WeekTable WeekTable :=
  ⟨Weekday.all.map field, {}, .ok⟩

/-- Reads a weekday table; a weekday that is missing is left to the parent. -/
def ofReading : Reading → Except ReadError WeekTable := form.read

end WeekTable

/-! ## Exceptions -/

namespace Category

/-- The fields read so far. -/
structure Slots where
  name : Option String := none
  color : Option String := none
  resourceSpecific : Option Bool := none

def form : Record Slots Category where
  fields :=
    [.required "name" Reading.asText fun s a => { s with name := some a },
     .required "color" Reading.asText fun s a => { s with color := some a },
     .required "resource_specific" Reading.asBool fun s a => { s with resourceSpecific := some a }]
  blank := {}
  build s := do
    let name ← Field.slot "name" s.name
    let color ← Field.slot "color" s.color
    let resourceSpecific ← Field.slot "resource_specific" s.resourceSpecific
    return { name, color, resourceSpecific }

def ofReading : Reading → Except ReadError Category := form.read

end Category

namespace ExceptionDay

/-- The fields read so far. -/
structure Slots where
  date : Option Date := none
  hours : Option Hours := none
  category : Option Category := none

def form : Record Slots ExceptionDay where
  fields :=
    [.required "date" Date.ofReading fun s a => { s with date := some a },
     .required "hours" Hours.ofReading fun s a => { s with hours := some a },
     .required "exception_type" Category.ofReading fun s a => { s with category := some a }]
  blank := {}
  build s := do
    let date ← Field.slot "date" s.date
    let hours ← Field.slot "hours" s.hours
    let category ← Field.slot "exception_type" s.category
    return { date, hours, category }

def ofReading : Reading → Except ReadError ExceptionDay := form.read

/-- The table of exceptions on distinct dates. -/
def tabulate (days : List ExceptionDay) : Except ReadError (Table ExceptionDay) :=
  days.foldlM (fun table e =>
    if table.contains e.date.index then .error (.repeatedException e.date)
    else .ok (table.insert e)) .empty

/-- Reads a list of exceptions to its end, then compares their dates. -/
def tableOfReading (value : Reading) : Except ReadError (Table ExceptionDay) := do
  tabulate (← value.asList ofReading)

end ExceptionDay

/-! ## Versions -/

namespace Version

/-- The record; no field is needed. -/
def form : Record Version Version where
  fields :=
    [.optionally "hours" WeekTable.ofReading fun v a => { v with week := a },
     .optionally "exceptions" ExceptionDay.tableOfReading fun v a => { v with exceptions := a },
     .optionally "parent" (Reading.asNullable CalendarId.ofReading) fun v a =>
       { v with parent := a },
     .optionally "valid_from" (Reading.asNullable Date.ofReading) fun v a =>
       { v with validFrom := a },
     .optionally "expiring_date" (Reading.asNullable Date.ofReading) fun v a =>
       { v with expires := a }]
  blank := {}
  build := .ok

def ofReading : Reading → Except ReadError Version := form.read

end Version

/-! ## Calendars -/

namespace Calendar

/-- The fields read so far. -/
structure Slots where
  id : Option CalendarId := none
  name : Option String := none
  versions : Option (List Version) := none

/-- A calendar before its versions are compared. -/
structure Fields where
  id : CalendarId
  name : String
  versions : List Version

def form : Record Slots Fields where
  fields :=
    [.required "id" CalendarId.ofReading fun s a => { s with id := some a },
     .required "name" Reading.asText fun s a => { s with name := some a },
     .required "versions" (Reading.asList Version.ofReading) fun s a =>
       { s with versions := some a }]
  blank := {}
  build s := do
    let id ← Field.slot "id" s.id
    let name ← Field.slot "name" s.name
    let versions ← Field.slot "versions" s.versions
    return { id, name, versions }

/-- Reads a calendar whose versions divide time. -/
def ofReading (value : Reading) : Except ReadError Calendar := do
  let c ← form.read value
  (ofVersions c.id c.name c.versions).mapError .rule

end Calendar

/-! ## Registries -/

namespace Registry

/-- The fields read so far. -/
structure Slots where
  nextId : Option CalendarId := none
  calendars : Option (List Calendar) := none

/-- A registry before its calendars are compared. -/
structure Fields where
  nextId : CalendarId
  calendars : List Calendar

def form : Record Slots Fields where
  fields :=
    [.required "next_id" CalendarId.ofReading fun s a => { s with nextId := some a },
     .required "calendars" (Reading.asList Calendar.ofReading) fun s a =>
       { s with calendars := some a }]
  blank := {}
  build s := do
    let nextId ← Field.slot "next_id" s.nextId
    let calendars ← Field.slot "calendars" s.calendars
    return { nextId, calendars }

/-- Reads a registry whose calendars fit together. -/
def ofReading (value : Reading) : Except ReadError Registry := do
  let r ← form.read value
  (ofCalendars r.calendars r.nextId).mapError .registry

def parse (text : String) : Except ReadError Registry :=
  JsonText.decode ofReading text

end Registry

end WorkingTime
