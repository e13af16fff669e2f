/-
The proleptic Gregorian calendar with a year 0: from a counted day to its
year, month and day of the month, and back.

Both directions count years from March, so that the leap day ends a year, and
from the March of the year -10000, a multiple of four hundred, so that every
number on the way is natural.
-/
import WorkingTime.Date.Basic

namespace WorkingTime

/-- A year, a month and a day of the month; not every such triple is a date. -/
structure Civil where
  year : Int
  month : Nat
  day : Nat
deriving DecidableEq

namespace Civil

/-! ## Which triples are dates -/

def isLeap (year : Int) : Bool :=
  year % 4 == 0 && (year % 100 != 0 || year % 400 == 0)

def daysIn (year : Int) (month : Nat) : Nat :=
  match month with
  | 2 => if isLeap year then 29 else 28
  | 4 | 6 | 9 | 11 => 30
  | _ => 31

/-- The triples that name a day of the years -9999 to 9999. -/
def Valid (c : Civil) : Prop :=
  (-9999 ≤ c.year ∧ c.year ≤ 9999) ∧ (1 ≤ c.month ∧ c.month ≤ 12) ∧
    (1 ≤ c.day ∧ c.day ≤ daysIn c.year c.month)

instance (c : Civil) : Decidable c.Valid := by unfold Valid; infer_instance

/-! ## Years that begin in March -/

/-- The number of days before the March that begins year `y`, counted from
the March of -10000. -/
def yearStart (y : Nat) : Nat :=
  365 * y + y / 4 - y / 100 + y / 400

/-- The number of days in a year before its month `m`, March being month 0. -/
def monthStart (m : Nat) : Nat :=
  (153 * m + 2) / 5

/-- The number of days from 1 March -10000 to 1 January -9999. -/
def marchOffset : Nat := 306

def index (c : Civil) : Nat :=
  let m := (c.month + 9) % 12
  let y := (c.year + 10000).toNat - m / 10
  yearStart y + monthStart m + (c.day - 1) - marchOffset

/-- The date a triple names, if it names one. -/
def date? (c : Civil) : Option Date :=
  if c.Valid then Date.ofIndex? c.index else none

end Civil

namespace Date

/-- The year, counted from the March of -10000, that holds day `n`, and the
day of that year.  A century has 36524 days and four years have 1461, each
with a day more when a leap day ends it; hence the two caps. -/
def marchYear (n : Nat) : Nat × Nat :=
  let era := n / 146097
  let inEra := n % 146097
  let century := min 3 (inEra / 36524)
  let inCentury := inEra - 36524 * century
  let four := inCentury / 1461
  let inFour := inCentury % 1461
  let single := min 3 (inFour / 365)
  (400 * era + 100 * century + 4 * four + single, inFour - 365 * single)

def civil (d : Date) : Civil :=
  let (y, dayOfYear) := marchYear (d.index + Civil.marchOffset)
  let m := (5 * dayOfYear + 2) / 153
  { year := y + m / 10 - 10000
    month := (m + 2) % 12 + 1
    day := dayOfYear - Civil.monthStart m + 1 }

end Date

end WorkingTime
