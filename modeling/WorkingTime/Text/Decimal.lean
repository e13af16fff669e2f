/-
Decimal numbers as text: writing a natural number, with or without leading
zeros, and reading a run of digits of a known length.

Nothing here knows of signs; a date puts one before its year and a number one
before its digits.
-/
namespace WorkingTime.Text

/-! ## Digits -/

/-- The digit that stands for `n % 10`. -/
def digit (n : Nat) : Char :=
  Char.ofNat (48 + n % 10)

/-- Whether a character is one of the ten ASCII digits. -/
def isDigit (c : Char) : Bool :=
  48 ≤ c.toNat && c.toNat ≤ 57

def digitValue (c : Char) : Nat :=
  c.toNat - 48

/-! ## Writing -/

/-- The decimal digits of a number, without leading zeros. -/
def decimal (n : Nat) : List Char :=
  if n < 10 then [digit n] else decimal (n / 10) ++ [digit n]
termination_by n
decreasing_by omega

/-- The decimal digits of a number, with leading zeros up to `width`. -/
def padded (width n : Nat) : List Char :=
  List.replicate (width - (decimal n).length) '0' ++ decimal n

/-- The decimal digits of an integer, a minus before a negative one. -/
def signed : Int → List Char
  | .ofNat n => decimal n
  | .negSucc n => '-' :: decimal (n + 1)

/-! ## Reading -/

/-- The number a run of digits stands for. -/
def value (digits : List Char) : Nat :=
  digits.foldl (fun n c => 10 * n + digitValue c) 0

/-- The value of exactly `count` digits at the head of a text, and the text
after them. -/
def takeNumber? (count : Nat) (s : List Char) : Option (Nat × List Char) :=
  let digits := s.take count
  if digits.length = count ∧ digits.all isDigit then
    some (value digits, s.drop count)
  else none

end WorkingTime.Text
