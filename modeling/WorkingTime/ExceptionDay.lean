/-
Exceptions: hours for one date, whatever its weekday, with the category that
gave rise to them.
-/
import WorkingTime.Hours
import WorkingTime.Table

namespace WorkingTime

/-- A category of exceptions, such as a holiday. -/
structure Category where
  name : String
  /-- How a calendar view paints the day. -/
  color : String
  /-- Whether the category concerns a single resource. -/
  resourceSpecific : Bool
deriving DecidableEq

/-- The hours of one date. -/
structure ExceptionDay where
  date : Date
  hours : Hours
  category : Category
deriving DecidableEq

instance : Keyed ExceptionDay := ⟨fun e => e.date.index⟩

def ExceptionDay.enter (date : Date) (hours : Int) (category : Category) :
    Except RuleError ExceptionDay :=
  (⟨date, ·, category⟩) <$> Hours.check hours

end WorkingTime
