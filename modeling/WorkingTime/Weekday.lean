/-
The seven weekdays, their order from Monday to Sunday and their English names.
-/
import WorkingTime.Text.Blank

namespace WorkingTime

/-- A day of the week. -/
inductive Weekday where
  | monday | tuesday | wednesday | thursday | friday | saturday | sunday
deriving DecidableEq

namespace Weekday

/-- The week, Monday first. -/
def all : List Weekday :=
  [monday, tuesday, wednesday, thursday, friday, saturday, sunday]

/-- The number of days since the last Monday. -/
def index : Weekday → Nat
  | monday => 0 | tuesday => 1 | wednesday => 2 | thursday => 3
  | friday => 4 | saturday => 5 | sunday => 6

/-- The weekday `n` days after a Monday. -/
def ofIndex (n : Nat) : Weekday :=
  match n % 7 with
  | 0 => monday | 1 => tuesday | 2 => wednesday | 3 => thursday
  | 4 => friday | 5 => saturday | _ => sunday

/-! ## Names -/

/-- The English name, in lower case. -/
def name : Weekday → String
  | monday => "monday" | tuesday => "tuesday" | wednesday => "wednesday"
  | thursday => "thursday" | friday => "friday" | saturday => "saturday"
  | sunday => "sunday"

/-- The English name as it begins a sentence. -/
def title : Weekday → String
  | monday => "Monday" | tuesday => "Tuesday" | wednesday => "Wednesday"
  | thursday => "Thursday" | friday => "Friday" | saturday => "Saturday"
  | sunday => "Sunday"

/-- The name cut to three letters. -/
def shortName (w : Weekday) : String :=
  String.ofList (w.name.toList.take 3)

/-- Reads a weekday by its full or three-letter name, with ASCII letters in
either case and with blanks around it. -/
def ofName? (text : String) : Option Weekday :=
  let name := String.ofList ((Text.trim text.toList).map Char.toLower)
  all.find? fun w => w.name == name || w.shortName == name

end Weekday

end WorkingTime
