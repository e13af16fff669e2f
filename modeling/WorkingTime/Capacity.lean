/-
What calendars say of a date: its hours, where they come from, and the
exceptions in effect.

On a date, the version in effect decides by an exception, else by the rule of
the weekday, and else its parent decides for the same date; with no parent the
date has no hours.  Some questions ask the current versions instead and are
about no date.  Each answer is a function of the list of versions along a
lineage, and the registry only has to find that list.
-/
import WorkingTime.Registry.Edit
import WorkingTime.Date.Span

namespace WorkingTime

/-! ## Who decides -/

/-- What the decision for a date rests on. -/
inductive Resolution where
  /-- An exception of the calendar itself. -/
  | own (e : ExceptionDay)
  /-- An exception of an ancestor. -/
  | ancestral (e : ExceptionDay)
  /-- A weekday rule. -/
  | weekly (hours : Hours)
  /-- Nothing: no version decides. -/
  | undecided
deriving DecidableEq

/-- The four kinds of date. -/
inductive DayType where
  | normal | zeroHours | ownException | ancestorException
deriving DecidableEq

namespace Resolution

/-- A decision as seen from a calendar that leaves the date to its parent. -/
def passedDown : Resolution → Resolution
  | own e => ancestral e
  | r => r

def hours : Resolution → Nat
  | own e | ancestral e => e.hours.value
  | weekly h => h.value
  | undecided => 0

def dayType : Resolution → DayType
  | own _ => .ownException
  | ancestral _ => .ancestorException
  | weekly h => if h.value = 0 then .zeroHours else .normal
  | undecided => .zeroHours

/-- The exception that decides, if one does. -/
def exception? : Resolution → Option ExceptionDay
  | own e | ancestral e => some e
  | _ => none

end Resolution

namespace Version

/-- What a version by itself decides for a date. -/
def decision? (v : Version) (d : Date) : Option Resolution :=
  match v.exceptionOn? d with
  | some e => some (.own e)
  | none => (v.week.get d.weekday).hours?.map .weekly

/-- The decision for a date of the first version that takes one. -/
def resolve (d : Date) : List Version → Resolution
  | [] => .undecided
  | v :: ancestors => (v.decision? d).getD (resolve d ancestors).passedDown

/-- The hours that the first version with a rule for a weekday gives. -/
def weekdayHours (w : Weekday) : List Version → Nat
  | [] => 0
  | v :: ancestors =>
      match v.week.get w with
      | .fixed h => h.value
      | .inherited => weekdayHours w ancestors

/-- The exceptions of the first version and those it lets through from its
ancestors: on other dates, and on weekdays without a rule of its own. -/
def effectiveExceptions : List Version → Table ExceptionDay
  | [] => .empty
  | v :: ancestors =>
      v.exceptions.overlay <|
        (effectiveExceptions ancestors).filter fun e => (v.week.get e.date.weekday).isInherited

end Version

namespace Registry

/-! ## One date -/

def resolve (r : Registry) (id : CalendarId) (d : Date) : Except RegistryError Resolution :=
  Version.resolve d <$> r.versionsAlong (·.versionAt d) id

def capacityAt (r : Registry) (id : CalendarId) (d : Date) : Except RegistryError Nat :=
  Resolution.hours <$> r.resolve id d

def classify (r : Registry) (id : CalendarId) (d : Date) : Except RegistryError DayType :=
  Resolution.dayType <$> r.resolve id d

/-- The exception that decides a date, the calendar's own or an ancestor's. -/
def exceptionDay (r : Registry) (id : CalendarId) (d : Date) :
    Except RegistryError (Option ExceptionDay) :=
  Resolution.exception? <$> r.resolve id d

/-! ## Many dates -/

/-- The sum of the hours of a range. -/
def workableHours (r : Registry) (id : CalendarId) (start finish : Date) :
    Except RegistryError Nat := do
  -- a reversed range is refused before the calendar is looked for
  let dates ← asRule (Date.range start finish)
  (List.foldl (· + ·) 0) <$> dates.mapM (r.capacityAt id)

/-- The sum of the hours of the week of a date. -/
def weekHours (r : Registry) (id : CalendarId) (d : Date) : Except RegistryError Nat := do
  let (monday, sunday) ← asRule d.weekBounds
  r.workableHours id monday sunday

/-- The dates of a range without hours. -/
def nonWorkableDays (r : Registry) (id : CalendarId) (start finish : Date) :
    Except RegistryError (List Date) := do
  let dates ← asRule (Date.range start finish)
  let hours ← dates.mapM (r.capacityAt id)
  return ((dates.zip hours).filter (·.2 == 0)).map (·.1)

/-! ## Current versions -/

/-- Whether the current rules give no hours on a weekday, exceptions left
aside. -/
def zeroHoursOn (r : Registry) (id : CalendarId) (w : Weekday) : Except RegistryError Bool :=
  (Version.weekdayHours w · == 0) <$> r.versionsAlong (·.current) id

/-- Whether the current rules give no hours on any weekday. -/
def onlyZeroHours (r : Registry) (id : CalendarId) : Except RegistryError Bool :=
  Weekday.all.allM (r.zeroHoursOn id)

/-- The exceptions of the current version and the ones it inherits. -/
def exceptions (r : Registry) (id : CalendarId) : Except RegistryError (List ExceptionDay) :=
  (fun vs => (Version.effectiveExceptions vs).rows) <$> r.versionsAlong (·.current) id

end Registry

end WorkingTime
