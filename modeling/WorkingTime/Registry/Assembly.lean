/-
Putting a registry together from calendars that were stored somewhere.

The calendars are checked and kept as they are.  The checks of names and ids
go through them in the order given, the checks of parents in the order of
their ids, and the first violation is the answer.
-/
import WorkingTime.Registry.Ancestry

namespace WorkingTime.Registry

/-- The name that a text stands for: the text without blanks around it. -/
def checkName (text : String) : Except RegistryError String :=
  let name := Text.trimmed text
  if name.isEmpty then .error (.invalidName "Calendar name cannot be empty") else .ok name

def hasName (r : Registry) (name : String) : Bool :=
  r.calendars.rows.any (·.name == name)

def admitStored (r : Registry) (c : Calendar) : Except RegistryError Registry := do
  let name ← checkName c.name
  -- compared without the blanks around it, but kept as it was stored
  if r.hasName name then throw (.duplicateName name)
  if r.calendars.contains c.id.value then
    throw (.inconsistent s!"calendar id {c.id} is used twice")
  return r.put c

/-- The largest id of a calendar, 0 when there is none. -/
def highestId (r : Registry) : CalendarId :=
  r.calendars.rows.foldl (fun id c => id.max c.id) ⟨0, by decide⟩

/-- The registry with a next id that is at least `nextId` and past all its
calendars. -/
def reserveIds (r : Registry) (nextId : CalendarId) : Except RegistryError Registry :=
  match r.highestId.next? with
  | some free => .ok { r with nextId := nextId.max free }
  | none => .error (.noRoomAfter r.highestId)

/-- Whether a calendar's parent is there and does not have the calendar among
its ancestors. -/
def checkParent (r : Registry) (calendar parent : CalendarId) : Except RegistryError Unit := do
  unless r.calendars.contains parent.value do
    throw (.inconsistent s!"calendar {calendar} references missing parent {parent}")
  if r.reaches parent calendar then throw (.cyclicParent calendar parent)

def checkParents (r : Registry) : Except RegistryError Unit :=
  r.calendars.rows.forM fun c => c.parents.forM (r.checkParent c.id)

def ofCalendars (calendars : List Calendar) (nextId : CalendarId) :
    Except RegistryError Registry := do
  let named ← calendars.foldlM admitStored empty
  let r ← named.reserveIds nextId
  r.checkParents
  return r

end WorkingTime.Registry
