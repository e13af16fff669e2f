/-
The numbers by which calendars refer to each other.
-/
namespace WorkingTime

/-- The number of a calendar: at most 64 bits, as documents keep it. -/
structure CalendarId where
  value : Nat
  isLt : value < UInt64.size
deriving DecidableEq

namespace CalendarId

/-- The number as an id, if it is small enough. -/
def ofNat? (value : Nat) : Option CalendarId :=
  if h : value < UInt64.size then some ⟨value, h⟩ else none

def next? (id : CalendarId) : Option CalendarId :=
  ofNat? (id.value + 1)

def max (a b : CalendarId) : CalendarId :=
  if a.value ≤ b.value then b else a

instance : ToString CalendarId := ⟨fun id => s!"#{id.value}"⟩

end CalendarId

end WorkingTime
