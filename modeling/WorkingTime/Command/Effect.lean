/-
What commands do to a registry.

A command yields the changed registry and a record of the change, or a cause
and no change.  A batch is all or nothing: its result is that of its commands
one after the other, or the cause of the first that fails.
-/
import WorkingTime.Command.Basic

namespace WorkingTime

namespace Command

/-- The registry a command makes, and the details for the record. -/
def effect (r : Registry) : Command → Except RegistryError (Registry × String)
  | createCalendar name => do
      let (id, r) ← r.create name
      return (r, s!"Created calendar {id}")
  | deriveCalendar parent name => do
      let (id, r) ← r.derive (← r.idOf parent) name
      return (r, s!"Created calendar {id} derived from '{parent}'")
  | copyCalendar source name => do
      let (id, r) ← r.copy (← r.idOf source) name
      return (r, s!"Created calendar {id} as a copy of '{source}'")
  | renameCalendar calendar name => do
      let r ← r.rename (← r.idOf calendar) name
      return (r, s!"Renamed to '{Text.trimmed name}'")
  | removeCalendar calendar => do
      let (c, r) ← r.remove (← r.idOf calendar)
      return (r, s!"Removed calendar {c.id}")
  | setHours calendar weekday hours => do
      let r ← r.edit (← r.idOf calendar) (·.setHours weekday (hours.map (·.value)))
      match hours with
      | none => return (r, s!"Reset {weekday.name} to default")
      | some h => return (r, s!"Set {weekday.name} to {h} hours")
  | addException calendar date hours category => do
      let id ← r.idOf calendar
      let e ← asRule (ExceptionDay.enter date hours.value category)
      let r ← r.edit id (·.addException e)
      return (r, s!"Added {category.name} exception on {date} with {hours} hours")
  | removeException calendar date => do
      let (e, r) ← r.removeException (← r.idOf calendar) date
      return (r, s!"Removed {e.category.name} exception on {date}")
  | updateException calendar date hours category => do
      let r ← r.edit (← r.idOf calendar) (·.updateException date hours.value category)
      return (r, s!"Updated exception on {date} to {category.name} with {hours} hours")
  | setParent calendar parent => do
      let id ← r.idOf calendar
      let parentId ← parent.mapM r.idOf
      let r ← r.setParent id parentId
      match parent with
      | none => return (r, "Detached from parent")
      | some parent => return (r, s!"Parent set to '{parent}'")
  | newVersion calendar effectiveFrom => do
      let r ← r.edit (← r.idOf calendar) (·.newVersion effectiveFrom)
      return (r, s!"Started a new version on {effectiveFrom}")
  | setExpiringDate calendar date reference => do
      let r ← r.edit (← r.idOf calendar) (·.setExpires date reference)
      return (r, s!"Version containing {reference} now expires on {date}")
  | setValidFrom calendar date reference => do
      let r ← r.edit (← r.idOf calendar) (·.setValidFrom date reference)
      return (r, s!"Version containing {reference} now starts on {date}")

end Command

namespace Registry

def apply (r : Registry) (command : Command) : Except RegistryError (Registry × Action) := do
  let (r, details) ← command.effect r
  return (r, ⟨command.kind.title, command.subject, some details⟩)

/-- The registry that commands make one after the other, and their records. -/
def applyAll (r : Registry) : List Command → Except RegistryError (Registry × List Action)
  | [] => .ok (r, [])
  | command :: rest => do
      let (r, action) ← r.apply command
      let (r, actions) ← r.applyAll rest
      return (r, action :: actions)

end Registry

end WorkingTime
