/-
Edits of a registry: making, naming, removing and relating calendars, and
editing one of them by its id.

Every edit first checks and then builds the new registry, so a refused edit
has no effect, and only a new calendar takes an id.
-/
import WorkingTime.Registry.Assembly

namespace WorkingTime.Registry

/-! ## New calendars -/

/-- The name a text stands for, if no calendar has it. -/
def availableName (r : Registry) (text : String) : Except RegistryError String := do
  let name ← checkName text
  if r.hasName name then throw (.duplicateName name)
  return name

/-- The next id, and the registry that gives the one after it next. -/
def allocateId (r : Registry) : Except RegistryError (CalendarId × Registry) :=
  match r.nextId.next? with
  | some next => .ok (r.nextId, { r with nextId := next })
  | none => .error (.noRoomAfter r.nextId)

/-- Adds a calendar that has the rules of `v` at all times. -/
def add (r : Registry) (name : String) (v : Version) :
    Except RegistryError (CalendarId × Registry) := do
  let name ← r.availableName name
  let (id, r) ← r.allocateId
  return (id, r.put (.single id name v))

/-- Adds a calendar without rules. -/
def create (r : Registry) (name : String) : Except RegistryError (CalendarId × Registry) :=
  r.add name {}

/-- Adds a calendar that leaves everything to `parent`. -/
def derive (r : Registry) (parent : CalendarId) (name : String) :
    Except RegistryError (CalendarId × Registry) := do
  discard (r.get parent)
  r.add name (.derivedFrom parent)

/-- Adds a calendar with the rules of the current version of `source`. -/
def copy (r : Registry) (source : CalendarId) (name : String) :
    Except RegistryError (CalendarId × Registry) := do
  let c ← r.get source
  r.add name c.current

/-! ## Names, removal, parents -/

def rename (r : Registry) (id : CalendarId) (text : String) : Except RegistryError Registry := do
  let name ← checkName text
  -- the calendar itself may have the name already
  if r.calendars.rows.any fun c => c.id != id && c.name == name then
    throw (.duplicateName name)
  let c ← r.get id
  return r.put { c with name }

/-- The first other calendar with a version that has `id` as its parent. -/
def dependant? (r : Registry) (id : CalendarId) : Option Calendar :=
  r.calendars.rows.find? fun c => c.id != id && c.parents.contains id

/-- Takes out a calendar that is not a parent of another one. -/
def remove (r : Registry) (id : CalendarId) : Except RegistryError (Calendar × Registry) := do
  let c ← r.get id
  match r.dependant? id with
  | some other => throw (.parentInUse id other.id)
  | none => return (c, { r with calendars := r.calendars.erase id.value })

/-- Gives the current version of a calendar another parent, or none. -/
def setParent (r : Registry) (id : CalendarId) (parent : Option CalendarId) :
    Except RegistryError Registry := do
  let c ← r.get id
  if let some parent := parent then
    discard (r.get parent)
    -- asked while the current version still has its old parent
    if r.reaches parent id then throw (.cyclicParent id parent)
  return r.put (c.setParent parent)

/-! ## One calendar -/

def edit (r : Registry) (id : CalendarId) (change : Calendar → Except RuleError Calendar) :
    Except RegistryError Registry := do
  let c ← r.get id
  return r.put (← asRule (change c))

def removeException (r : Registry) (id : CalendarId) (d : Date) :
    Except RegistryError (ExceptionDay × Registry) := do
  let c ← r.get id
  let (e, c) ← asRule (c.removeException d)
  return (e, r.put c)

end WorkingTime.Registry
