/-
Dates as days counted from -9999-01-01, which is a Monday, up to 9999-12-31.

Counting makes order, neighbours, ranges and weekdays plain arithmetic on
natural numbers.  Years, months and days of the month live in
`WorkingTime.Date.Civil`, and only the written form needs them.
-/
import WorkingTime.Weekday

namespace WorkingTime

/-- The number of days in the years -9999 to 9999. -/
def dayCount : Nat := 7304484

/-- A day of the years -9999 to 9999. -/
structure Date where
  /-- The number of days since -9999-01-01. -/
  index : Nat
  /-- The last day is 9999-12-31. -/
  isLt : index < dayCount
deriving DecidableEq

namespace Date

/-- The day with this index, if it is a supported one. -/
def ofIndex? (index : Nat) : Option Date :=
  if h : index < dayCount then some ⟨index, h⟩ else none

/-! ## Order -/

instance : LT Date := ⟨fun a b => a.index < b.index⟩
instance : LE Date := ⟨fun a b => a.index ≤ b.index⟩

instance (a b : Date) : Decidable (a < b) := inferInstanceAs (Decidable (a.index < b.index))
instance (a b : Date) : Decidable (a ≤ b) := inferInstanceAs (Decidable (a.index ≤ b.index))

theorem lt_iff {a b : Date} : a < b ↔ a.index < b.index := Iff.rfl
theorem le_iff {a b : Date} : a ≤ b ↔ a.index ≤ b.index := Iff.rfl

@[ext] theorem ext {a b : Date} (h : a.index = b.index) : a = b := by
  cases a; cases b; cases h; rfl

/-! ## Weekdays -/

/-- The weekday of a date: the count starts on a Monday. -/
def weekday (d : Date) : Weekday :=
  .ofIndex d.index

end Date

end WorkingTime
