/-
Registries: calendars that refer to each other by id.

A registry keeps its calendars in the order of their ids and knows the next
id it will give.  Its errors are here too; an error in the rules of one
calendar is wrapped by `RegistryError.rule`.
-/
import WorkingTime.Calendar.Edit

namespace WorkingTime

/-! ## Errors -/

/-- Why a registry cannot answer or change. -/
inductive RegistryError where
  /-- The rules of a calendar do not allow it. -/
  | rule (error : RuleError)
  | unknownId (id : CalendarId)
  | unknownName (name : String)
  | duplicateName (name : String)
  | invalidName (reason : String)
  /-- The parent has the calendar among its ancestors. -/
  | cyclicParent (calendar parent : CalendarId)
  /-- The calendar is a parent of another one. -/
  | parentInUse (calendar dependant : CalendarId)
  /-- The calendars do not fit together. -/
  | inconsistent (reason : String)
deriving DecidableEq

namespace RegistryError

def message : RegistryError → String
  | rule e => s!"Domain violation: {e.message}"
  | unknownId id => s!"Calendar {id} not found"
  | unknownName name => s!"Calendar '{name}' not found"
  | duplicateName name => s!"Calendar '{name}' already exists"
  | invalidName reason => s!"Invalid calendar name: {reason}"
  | cyclicParent calendar parent =>
      s!"Calendar {parent} cannot be the parent of {calendar}: it would create a cycle"
  | parentInUse calendar dependant =>
      s!"Calendar {calendar} cannot be removed: calendar {dependant} derives from it"
  | inconsistent reason => s!"Invalid calendar registry: {reason}"

/-- The error inside, if this one only wraps another. -/
def cause? : RegistryError → Option RuleError
  | rule e => some e
  | _ => none

/-- The id `id` is the last one, so that no other can follow. -/
def noRoomAfter (id : CalendarId) : RegistryError :=
  inconsistent s!"calendar id {id.value} leaves no room for new ids"

end RegistryError

def asRule {α : Type} (answer : Except RuleError α) : Except RegistryError α :=
  answer.mapError .rule

/-! ## Calendars by id and by name -/

/-- All calendars and the next id. -/
structure Registry where
  calendars : Table Calendar
  nextId : CalendarId
deriving DecidableEq

namespace Registry

/-- The registry without calendars; ids start at 1. -/
def empty : Registry :=
  ⟨.empty, ⟨1, by decide⟩⟩

def size (r : Registry) : Nat :=
  r.calendars.rows.length

def get (r : Registry) (id : CalendarId) : Except RegistryError Calendar :=
  match r.calendars.find? id.value with
  | some c => .ok c
  | none => .error (.unknownId id)

/-- The calendar with this name, blanks around it left out. -/
def find (r : Registry) (name : String) : Except RegistryError Calendar :=
  let name := Text.trimmed name
  match r.calendars.rows.find? (·.name == name) with
  | some c => .ok c
  | none => .error (.unknownName name)

def idOf (r : Registry) (name : String) : Except RegistryError CalendarId :=
  Calendar.id <$> r.find name

/-- The registry with a calendar added, or put instead of the one with its
id. -/
def put (r : Registry) (c : Calendar) : Registry :=
  { r with calendars := r.calendars.insert c }

end Registry

end WorkingTime
