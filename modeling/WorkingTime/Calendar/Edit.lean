/-
Edits of one calendar.

Rules change in the current version only.  Bounds change in two ways: a new
version closes the current one, and a boundary between two neighbours moves.
An edit returns the new calendar or a cause; there is nothing to undo.
-/
import WorkingTime.Calendar.Basic

namespace WorkingTime.Calendar

/-! ## The current version -/

/-- The rule of a weekday; no hours means that the parent decides. -/
def setHours (c : Calendar) (w : Weekday) (hours : Option Int) : Except RuleError Calendar := do
  let rule ← DayRule.enter hours
  return { c with current := c.current.setRule w rule }

/-- Several weekday rules, none of them if one is refused. -/
def setHoursPerDay (c : Calendar) (hours : List (Weekday × Option Int)) :
    Except RuleError Calendar := do
  let rules ← hours.mapM fun (w, entered) => do return (w, ← DayRule.enter entered)
  return { c with current := { c.current with week := c.current.week.setAll rules } }

def setInherited (c : Calendar) (w : Weekday) : Calendar :=
  { c with current := c.current.setRule w .inherited }

def addException (c : Calendar) (e : ExceptionDay) : Except RuleError Calendar := do
  return { c with current := ← c.current.addException e }

def removeException (c : Calendar) (d : Date) : Except RuleError (ExceptionDay × Calendar) := do
  let (e, v) ← c.current.removeException d
  return (e, { c with current := v })

def updateException (c : Calendar) (d : Date) (hours : Int) (category : Category) :
    Except RuleError Calendar := do
  return { c with current := ← c.current.updateException d hours category }

/-- Another parent for the current version.  Whether it closes a cycle is for
the registry to know. -/
def setParent (c : Calendar) (parent : Option CalendarId) : Calendar :=
  { c with current := { c.current with parent } }

/-! ## Bounds -/

/-- Closes the current version on `start` and opens one with the same rules,
which becomes the current one. -/
def newVersion (c : Calendar) (start : Date) : Except RuleError Calendar :=
  match c.current.validFrom.filter (start ≤ ·) with
  | some first => .error (.versionStart start first)
  | none => .ok
      { c with
        superseded := c.superseded ++ [{ c.current with expires := some start }]
        current := c.current.successor start }

/-- Whether a boundary may lie on `d`, strictly between its two neighbours;
a missing neighbour is no limit. -/
def isBetween (lower : Option Date) (d : Date) (upper : Option Date) : Bool :=
  lower.all (· < d) && upper.all (d < ·)

/-- The calendar with `d` as the boundary between version `i` and the next. -/
def withBoundary (c : Calendar) (i : Nat) (d : Date) : Calendar :=
  let opened (v : Version) : Version := { v with validFrom := some d }
  { c with
    superseded :=
      (c.superseded.modify i fun v => { v with expires := some d }).modify (i + 1) opened
    -- behind the last superseded version comes the current one
    current := if i + 1 = c.superseded.length then opened c.current else c.current }

/-- Moves the boundary between version `i`, which is `earlier`, and the next. -/
def moveBoundary (c : Calendar) (i : Nat) (earlier : Version) (d : Date) :
    Except RuleError Calendar :=
  let later := c.superseded[i + 1]?.getD c.current
  if isBetween earlier.validFrom d later.expires then .ok (c.withBoundary i d)
  else .error (.boundaryOutOfOrder d earlier.validFrom later.expires)

/-- Moves the end of the version in effect on `reference`. -/
def setExpires (c : Calendar) (d reference : Date) : Except RuleError Calendar :=
  let i := c.versionIndexAt reference
  match c.superseded[i]? with
  | some earlier => c.moveBoundary i earlier d
  | none => .error (.noNextVersion reference)

/-- Moves the start of the version in effect on `reference`. -/
def setValidFrom (c : Calendar) (d reference : Date) : Except RuleError Calendar :=
  let i := c.versionIndexAt reference
  -- `i` is matched as well, since `0 - 1` would be the place 0 again
  match i, c.superseded[i - 1]? with
  | j + 1, some earlier => c.moveBoundary j earlier d
  | _, _ => .error (.noPreviousVersion reference)

end WorkingTime.Calendar
