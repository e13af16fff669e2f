/-
Dates as text: `YYYY-MM-DD`, with a minus before a negative year.

Reading allows blanks around the date and a plus or a minus before any year,
also before `0000`; writing leaves out the plus and signs negative years only.
Reading goes from left to right and names the first part that does not fit;
whether the month has that day is asked last, after the end of the text.
-/
import WorkingTime.Date.Civil
import WorkingTime.Text.Blank
import WorkingTime.Text.Decimal

namespace WorkingTime

/-! ## Writing -/

namespace Civil

/-- A year with four digits, signed only when negative. -/
def yearText (year : Int) : List Char :=
  (if year < 0 then ['-'] else []) ++ Text.padded 4 year.natAbs

/-- A triple as `YYYY-MM-DD`. -/
def text (c : Civil) : List Char :=
  yearText c.year ++ '-' :: Text.padded 2 c.month ++ '-' :: Text.padded 2 c.day

end Civil

def Date.text (d : Date) : String :=
  String.ofList d.civil.text

instance : ToString Date := ⟨Date.text⟩

/-! ## Reading -/

/-- Why a text is not a date. -/
inductive DateFault where
  | year | month | day
  | separator
  | trailing
  | dayOfMonth
deriving DecidableEq

def DateFault.message : DateFault → String
  | year => "the 'year' component could not be parsed"
  | month => "the 'month' component could not be parsed"
  | day => "the 'day' component could not be parsed"
  | separator => "a character literal was not valid"
  | trailing => "unexpected trailing characters; the end of input was expected"
  | dayOfMonth => "day was not in range"

namespace Civil

/-- A number of exactly two digits from 1 to `last` at the head of a text. -/
def takePart (last : Nat) (fault : DateFault) (s : List Char) :
    Except DateFault (Nat × List Char) :=
  match Text.takeNumber? 2 s with
  | some (n, rest) => if 1 ≤ n ∧ n ≤ last then .ok (n, rest) else .error fault
  | none => .error fault

/-- A year at the head of a text: an optional sign and exactly four digits. -/
def takeYear (s : List Char) : Except DateFault (Int × List Char) :=
  let (negative, digits) : Bool × List Char := match s with
    | '-' :: rest => (true, rest)
    | '+' :: rest => (false, rest)
    | _ => (false, s)
  match Text.takeNumber? 4 digits with
  | some (n, rest) => .ok (if negative then -(n : Int) else n, rest)
  | none => .error .year

def takeHyphen : List Char → Except DateFault (List Char)
  | '-' :: rest => .ok rest
  | _ => .error .separator

/-- The triple a whole text spells. -/
def ofText (s : List Char) : Except DateFault Civil := do
  let (year, s) ← takeYear s
  let s ← takeHyphen s
  let (month, s) ← takePart 12 .month s
  let s ← takeHyphen s
  let (day, s) ← takePart 31 .day s
  if s.isEmpty then return ⟨year, month, day⟩ else throw .trailing

end Civil

/-- Reads a date with blanks around it. -/
def Date.ofText (text : String) : Except DateFault Date := do
  let c ← Civil.ofText (Text.trim text.toList)
  match c.date? with
  | some d => return d
  | none => throw .dayOfMonth

end WorkingTime
