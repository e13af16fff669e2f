/-
One rule for each weekday.
-/
import WorkingTime.Hours

namespace WorkingTime

/-- The weekday rules of a version; at first the parent decides on all days. -/
structure WeekTable where
  monday : DayRule := .inherited
  tuesday : DayRule := .inherited
  wednesday : DayRule := .inherited
  thursday : DayRule := .inherited
  friday : DayRule := .inherited
  saturday : DayRule := .inherited
  sunday : DayRule := .inherited
deriving DecidableEq

namespace WeekTable

def get (t : WeekTable) : Weekday → DayRule
  | .monday => t.monday
  | .tuesday => t.tuesday
  | .wednesday => t.wednesday
  | .thursday => t.thursday
  | .friday => t.friday
  | .saturday => t.saturday
  | .sunday => t.sunday

def set (t : WeekTable) (w : Weekday) (rule : DayRule) : WeekTable :=
  match w with
  | .monday => { t with monday := rule }
  | .tuesday => { t with tuesday := rule }
  | .wednesday => { t with wednesday := rule }
  | .thursday => { t with thursday := rule }
  | .friday => { t with friday := rule }
  | .saturday => { t with saturday := rule }
  | .sunday => { t with sunday := rule }

/-- The table after replacing rules one by one. -/
def setAll (t : WeekTable) (rules : List (Weekday × DayRule)) : WeekTable :=
  rules.foldl (fun t r => t.set r.1 r.2) t

end WeekTable

end WorkingTime
