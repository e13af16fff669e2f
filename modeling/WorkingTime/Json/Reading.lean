/-
What is read from a JSON text, as far as it is JSON.

A text may stop being JSON somewhere in the middle.  What stands before that
place still counts: whoever takes the values in document order may find a
fault of another kind first.  So a reading keeps unfinished lists and objects,
marked as not closed, and `broken` stands where a value should be and is not.
-/
import WorkingTime.Json.Basic
import WorkingTime.Json.Numeral

namespace WorkingTime

/-- A value as read. -/
inductive Reading where
  /-- No value, or an unfinished one. -/
  | broken
  | null
  | bool (b : Bool)
  | number (n : Numeral)
  /-- A string; none when it has an unpaired surrogate. -/
  | text (s : Option String)
  | list (items : List Reading) (closed : Bool)
  | object (members : List (Option String × Reading)) (closed : Bool)

namespace Reading

/-! ## Values that may be passed over -/

mutual

/-- Whether a value is JSON to its end. -/
def isWhole : Reading → Bool
  | broken => false
  | list items closed => closed && areWhole items
  | object members closed => closed && membersWhole members
  | _ => true

def areWhole : List Reading → Bool
  | [] => true
  | item :: rest => item.isWhole && areWhole rest

def membersWhole : List (Option String × Reading) → Bool
  | [] => true
  | (_, value) :: rest => value.isWhole && membersWhole rest

end

/-! ## Values that may be kept for later -/

mutual

/-- Whether a value can be kept for later: JSON to its end, with readable
strings, with numbers that are not too large for a double, and with at most `room`
lists and objects inside each other. -/
def isKeepable (room : Nat) : Reading → Bool
  | broken => false
  | number n => !n.overflows
  | text s => s.isSome
  | list items closed => closed && 0 < room && areKeepable (room - 1) items
  | object members closed => closed && 0 < room && membersKeepable (room - 1) members
  | _ => true

def areKeepable (room : Nat) : List Reading → Bool
  | [] => true
  | item :: rest => item.isKeepable room && areKeepable room rest

def membersKeepable (room : Nat) : List (Option String × Reading) → Bool
  | [] => true
  | (key, value) :: rest => key.isSome && value.isKeepable room && membersKeepable room rest

end

end Reading

/-! ## Written values as read -/

namespace Json

mutual

/-- What is read from a written value. -/
def toReading : Json → Reading
  | null => .null
  | bool b => .bool b
  | number n => .number { negative := n < 0, whole := Text.decimal n.natAbs }
  | text s => .text (some s)
  | list items => .list (toReadings items) true
  | object members => .object (toMembers members) true

def toReadings : List Json → List Reading
  | [] => []
  | item :: rest => item.toReading :: toReadings rest

def toMembers : List (String × Json) → List (Option String × Reading)
  | [] => []
  | (key, value) :: rest => (some key, value.toReading) :: toMembers rest

end

end Json

end WorkingTime
