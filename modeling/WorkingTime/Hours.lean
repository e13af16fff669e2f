/-
Numbers of hours: those a calendar keeps, those somebody enters, and the rule
of one weekday.

A calendar keeps any natural number below 2^32; nothing ties it to the length
of a day.  A number is entered as any 64-bit integer and checked when it is
put to use, so a command can carry a number that its calendar will refuse.
-/
import WorkingTime.RuleError

namespace WorkingTime

/-- A number of hours that a calendar can keep. -/
structure Hours where
  value : Nat
  isLt : value < UInt32.size
deriving DecidableEq

/-- One more than the largest signed 64-bit integer. -/
def EnteredHours.limit : Int := 9223372036854775808

/-- A number of hours as entered: any signed 64-bit integer. -/
structure EnteredHours where
  value : Int
  inRange : -EnteredHours.limit ≤ value ∧ value < EnteredHours.limit
deriving DecidableEq

namespace Hours

instance : ToString Hours := ⟨fun h => toString h.value⟩

/-- The number as hours, if it is small enough. -/
def ofNat? (n : Nat) : Option Hours :=
  if h : n < UInt32.size then some ⟨n, h⟩ else none

/-- The check of an entered number: not negative and not too large. -/
def check (entered : Int) : Except RuleError Hours :=
  if entered < 0 then .error (.negativeHours entered)
  else match ofNat? entered.toNat with
    | some h => .ok h
    | none => .error (.hoursOutOfRange entered)

end Hours

def EnteredHours.ofInt? (n : Int) : Option EnteredHours :=
  if h : -limit ≤ n ∧ n < limit then some ⟨n, h⟩ else none

instance : ToString EnteredHours := ⟨fun h => toString h.value⟩

/-! ## The rule of a weekday -/

/-- What a version says of one weekday. -/
inductive DayRule where
  /-- Nothing: the parent decides. -/
  | inherited
  /-- This many hours; zero closes the day and does not ask the parent. -/
  | fixed (hours : Hours)
deriving DecidableEq

namespace DayRule

/-- The rule for entered hours; none of them means that the parent decides. -/
def enter : Option Int → Except RuleError DayRule
  | none => .ok inherited
  | some n => fixed <$> Hours.check n

/-- The hours a rule fixes. -/
def hours? : DayRule → Option Hours
  | inherited => none
  | fixed h => some h

def isInherited : DayRule → Bool
  | inherited => true
  | fixed _ => false

end DayRule

end WorkingTime
