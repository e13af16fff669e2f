/-
Calendars: a name and a history of versions.

The versions before the last one are superseded and keep their rules for good;
the last one is current, and every edit of rules goes to it.  That the
versions divide time is not part of the type: it is checked when a calendar is
read from a document, by `Calendar.ofVersions`.
-/
import WorkingTime.Version.Chain

namespace WorkingTime

/-- A named calendar. -/
structure Calendar where
  id : CalendarId
  name : String
  /-- The versions before the current one, oldest first. -/
  superseded : List Version
  current : Version
deriving DecidableEq

instance : Keyed Calendar := ⟨fun c => c.id.value⟩

namespace Calendar

/-! ## Making calendars -/

/-- A calendar whose only version has the rules of `v`, at all times. -/
def single (id : CalendarId) (name : String) (v : Version) : Calendar :=
  ⟨id, name, [], v.unbounded⟩

/-- The calendar with these versions, if they divide time. -/
def ofVersions (id : CalendarId) (name : String) (versions : List Version) :
    Except RuleError Calendar := do
  Version.validateChain versions
  return ⟨id, name, versions.dropLast, versions.getLast?.getD {}⟩

/-! ## Versions -/

/-- All versions, oldest first. -/
def versions (c : Calendar) : List Version :=
  c.superseded ++ [c.current]

/-- The place of the version in effect on a date. -/
def versionIndexAt (c : Calendar) (d : Date) : Nat :=
  c.superseded.findIdx (·.outlasts d)

/-- The version in effect on a date: the first one that outlasts it. -/
def versionAt (c : Calendar) (d : Date) : Version :=
  (c.superseded.find? (·.outlasts d)).getD c.current

/-- The parents of all versions, superseded ones included. -/
def parents (c : Calendar) : List CalendarId :=
  c.versions.filterMap (·.parent)

/-! ## Questions about one calendar alone -/

/-- The exception of the version in effect on a date, on that date. -/
def ownExceptionOn? (c : Calendar) (d : Date) : Option ExceptionDay :=
  (c.versionAt d).exceptionOn? d

/-- Whether the current version has a parent. -/
def isDerived (c : Calendar) : Bool :=
  c.current.parent.isSome

end Calendar

end WorkingTime
