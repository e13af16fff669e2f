/-
Versions: the rules of a calendar for a stretch of time.

A version has a weekday table, exceptions and at most one parent, and it is
valid from its first day, included, to its expiring date, excluded; a bound
may be missing.  Editing keeps a version's rules well-formed and knows nothing
of its neighbours; those are the matter of `WorkingTime.Version.Chain`.
-/
import WorkingTime.CalendarId
import WorkingTime.ExceptionDay
import WorkingTime.WeekTable

namespace WorkingTime

/-- What a version says, apart from when it is valid. -/
structure Rules where
  week : WeekTable := {}
  exceptions : Table ExceptionDay := .empty
  parent : Option CalendarId := none
deriving DecidableEq

/-- Rules and the stretch of time in which they are valid. -/
structure Version extends Rules where
  /-- The first day of validity. -/
  validFrom : Option Date := none
  /-- The first day after validity. -/
  expires : Option Date := none
deriving DecidableEq

namespace Version

/-! ## Making versions -/

/-- The version that leaves everything to a parent. -/
def derivedFrom (parent : CalendarId) : Version :=
  { parent := some parent }

/-- The same rules from a date on. -/
def successor (v : Version) (start : Date) : Version :=
  { v with validFrom := some start, expires := none }

/-- The same rules at all times. -/
def unbounded (v : Version) : Version :=
  { v with validFrom := none, expires := none }

/-! ## Validity -/

/-- Whether the version is valid on some day after `d` or on `d` itself,
going by its end alone. -/
def outlasts (v : Version) (d : Date) : Bool :=
  v.expires.all fun last => d < last

def contains (v : Version) (d : Date) : Bool :=
  v.validFrom.all (fun first => first ≤ d) && v.outlasts d

/-! ## Rules -/

def exceptionOn? (v : Version) (d : Date) : Option ExceptionDay :=
  v.exceptions.find? d.index

def setRule (v : Version) (w : Weekday) (rule : DayRule) : Version :=
  { v with week := v.week.set w rule }

/-- The version with one more exception, on a date that has none and does not
precede the version. -/
def addException (v : Version) (e : ExceptionDay) : Except RuleError Version :=
  match v.validFrom.filter (e.date < ·) with
  | some start => .error (.exceptionBeforeVersion e.date start)
  | none =>
      if (v.exceptionOn? e.date).isSome then .error (.duplicateException e.date)
      else .ok { v with exceptions := v.exceptions.insert e }

/-- The exception on a date, and the version without it. -/
def removeException (v : Version) (d : Date) : Except RuleError (ExceptionDay × Version) :=
  match v.exceptionOn? d with
  | some e => .ok (e, { v with exceptions := v.exceptions.erase d.index })
  | none => .error (.exceptionNotFound d)

def updateException (v : Version) (d : Date) (hours : Int) (category : Category) :
    Except RuleError Version := do
  let e ← ExceptionDay.enter d hours category
  if (v.exceptionOn? d).isSome then
    return { v with exceptions := v.exceptions.insert e }
  else throw (.exceptionNotFound d)

end Version

end WorkingTime
