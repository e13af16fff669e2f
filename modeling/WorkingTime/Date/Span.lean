/-
Runs of consecutive dates: inclusive ranges and the week around a date.

A week runs from Monday to Sunday.  As the first supported day is a Monday,
only the end of a week can lie past the supported dates.
-/
import WorkingTime.RuleError

namespace WorkingTime.Date

/-- Refuses a range that ends before it starts. -/
def checkRange (start finish : Date) : Except RuleError Unit :=
  if start ≤ finish then .ok () else .error (.reversedRange start finish)

/-- The dates from `start` to `finish`, both included, in order. -/
def upTo (start finish : Date) : List Date :=
  (List.range' start.index (finish.index + 1 - start.index)).filterMap ofIndex?

def range (start finish : Date) : Except RuleError (List Date) := do
  checkRange start finish
  return upTo start finish

/-- The Monday on or before a date. -/
def monday (d : Date) : Date :=
  ⟨d.index - d.index % 7, Nat.lt_of_le_of_lt (Nat.sub_le ..) d.isLt⟩

/-- The Monday and the Sunday of the week of a date. -/
def weekBounds (d : Date) : Except RuleError (Date × Date) :=
  match ofIndex? (d.monday.index + 6) with
  | some sunday => .ok (d.monday, sunday)
  | none => .error (.dateOverflow "finding the end of the week")

end WorkingTime.Date
