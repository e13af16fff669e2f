/-
What can be wrong with the rules of a calendar, or with an edit of them.

Each constructor is a cause; `RuleError.message` has the wording of all.  The
registry has causes of its own and wraps these.
-/
import WorkingTime.Date.Written

namespace WorkingTime

/-- A rule of a calendar is invalid, or an edit would make it so. -/
inductive RuleError where
  | negativeHours (hours : Int)
  /-- A number of hours too large to be kept. -/
  | hoursOutOfRange (hours : Int)
  | duplicateException (date : Date)
  | exceptionNotFound (date : Date)
  /-- An exception before the first day of the current version. -/
  | exceptionBeforeVersion (date validFrom : Date)
  /-- A new version that would not start after the current one. -/
  | versionStart (effectiveFrom currentStart : Date)
  /-- The version of the reference date is the last one. -/
  | noNextVersion (reference : Date)
  /-- The version of the reference date is the first one. -/
  | noPreviousVersion (reference : Date)
  /-- A boundary that would not lie strictly between its neighbours. -/
  | boundaryOutOfOrder (date : Date) (lower upper : Option Date)
  | reversedRange (start finish : Date)
  /-- A date computed past the last supported one. -/
  | dateOverflow (operation : String)
  | dateText (text reason : String)
  | weekdayName (text : String)
  | versionChain (reason : String)
deriving DecidableEq

namespace RuleError

/-- Where a boundary would have to lie. -/
def limits : Option Date → Option Date → String
  | some lower, some upper => s!"after {lower} and before {upper}"
  | some lower, none => s!"after {lower}"
  | none, some upper => s!"before {upper}"
  | none, none => "in chronological order"

def message : RuleError → String
  | negativeHours h => s!"The number of hours for a day can not be negative: {h}"
  | hoursOutOfRange h => s!"The number of hours for a day is out of range: {h}"
  | duplicateException d => s!"An exception already exists on {d}"
  | exceptionNotFound d => s!"No own exception exists on {d}"
  | exceptionBeforeVersion d start =>
      s!"Exception on {d} precedes the current version, which starts on {start}"
  | versionStart d start => s!"New version starting on {d} must start after {start}"
  | noNextVersion d => s!"There is no version after the one containing {d}"
  | noPreviousVersion d => s!"There is no version before the one containing {d}"
  | boundaryOutOfOrder d lower upper => s!"Version boundary {d} must be {limits lower upper}"
  | reversedRange start finish => s!"Invalid date range: {start} is after {finish}"
  | dateOverflow operation => s!"Date arithmetic overflow while {operation}"
  | dateText text reason => s!"Failed to parse date '{text}': {reason}"
  | weekdayName text => s!"Invalid weekday: {text}"
  | versionChain reason => s!"Invalid version chain: {reason}"

def isDuplicate : RuleError → Bool
  | duplicateException _ => true
  | _ => false

end RuleError

/-! ## Readers that name their cause -/

/-- Reads a date, with the whole text in the error. -/
def Date.parse (text : String) : Except RuleError Date :=
  (Date.ofText text).mapError fun fault => .dateText text fault.message

/-- Reads a weekday, with the whole text in the error. -/
def Weekday.parse (text : String) : Except RuleError Weekday :=
  match Weekday.ofName? text with
  | some w => .ok w
  | none => .error (.weekdayName text)

end WorkingTime
