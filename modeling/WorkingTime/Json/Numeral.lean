/-
JSON numbers as they are written.

A numeral keeps its digits, and a reader may ask two things of it: which
integer it is written as, if it is, and whether it is too large for a double.
The first answer is exact.  The second is about a quick approximation, so near
the largest double the value of a numeral alone does not decide it.
-/
import WorkingTime.Json.Double
import WorkingTime.Text.Decimal

namespace WorkingTime

/-- A number as written. -/
structure Numeral where
  negative : Bool
  /-- The digits before the point. -/
  whole : List Char
  /-- The digits after the point; none without a point. -/
  fraction : List Char := []
  /-- The power of ten written at the end, if one is. -/
  exponent : Option Int := none

namespace Numeral

/-! ## Reading -/

/-- The digits at the head of a text, at least one, and the text after them. -/
def takeDigits? (s : List Char) : Option (List Char × List Char) :=
  match s.takeWhile Text.isDigit with
  | [] => none
  | digits => some (digits, s.dropWhile Text.isDigit)

/-- The integer part: digits without a needless leading zero. -/
def takeWhole? (s : List Char) : Option (List Char × List Char) :=
  match takeDigits? s with
  | some ('0' :: _ :: _, _) => none
  | taken => taken

/-- The digits after the point, none if there is no point. -/
def takeFraction? : List Char → Option (List Char × List Char)
  | '.' :: s => takeDigits? s
  | s => some ([], s)

/-- The sign of an exponent. -/
def takeSign : List Char → Bool × List Char
  | '-' :: s => (true, s)
  | '+' :: s => (false, s)
  | s => (false, s)

/-- The exponent, which ends the numeral, if there is one. -/
def exponent? : List Char → Option (Option Int)
  | [] => some none
  | e :: s =>
      if e = 'e' ∨ e = 'E' then
        let (negative, s) := takeSign s
        match takeDigits? s with
        | some (digits, []) =>
            let n := Text.value digits
            some (some (if negative then -n else n))
        | _ => none
      else none

/-- The numeral that a whole text spells. -/
def ofWord? (s : List Char) : Option Numeral := do
  let (negative, s) : Bool × List Char := match s with
    | '-' :: s => (true, s)
    | _ => (false, s)
  let (whole, s) ← takeWhole? s
  let (fraction, s) ← takeFraction? s
  let exponent ← exponent? s
  return { negative, whole, fraction, exponent }

/-! ## As an integer -/

/-- Whether neither a point nor an exponent is written. -/
def isPlain (n : Numeral) : Bool :=
  n.fraction.isEmpty && n.exponent.isNone

/-- The integer a numeral is written as; a zero with a minus is none. -/
def int? (n : Numeral) : Option Int :=
  let value := Text.value n.whole
  if !n.isPlain then none
  else if !n.negative then some value
  else if value = 0 then none
  else some (-value)

/-! ## As a double -/

/-- Appends digits to a number as long as it has at most 64 bits; the number,
and how many digits are left over. -/
def append (kept : Nat) : List Char → Nat × Nat
  | [] => (kept, 0)
  | c :: rest =>
      let longer := 10 * kept + Text.digitValue c
      if longer < UInt64.size then append longer rest else (kept, rest.length + 1)

/-- The number of the leading digits and the power of ten that belongs to it.
The digits on each side of the point are taken while they fit, so after a
large integer part a first digit of the fraction may still be taken. -/
def leading (n : Numeral) : Nat × Int :=
  let (whole, skipped) := append 0 n.whole
  let (number, dropped) := append whole n.fraction
  (number, n.exponent.getD 0 + skipped - (n.fraction.length - dropped : Nat))

/-- The largest power of ten that is a double. -/
def largestPower : Nat := 308

/-- Whether a numeral, sign aside, is too large for a double: the double of
its leading digits times the double of their power of ten, in the arithmetic
of doubles, has no finite value. -/
def overflows (n : Numeral) : Bool :=
  match n.leading with
  | (0, _) => false
  -- the leading digits have at most 64 bits, and a negative power makes less of them
  | (_, .negSucc _) => false
  | (number, .ofNat e) =>
      largestPower < e || Double.limit ≤ Double.nearest number * Double.nearest (Nat.pow 10 e)

end Numeral

end WorkingTime
