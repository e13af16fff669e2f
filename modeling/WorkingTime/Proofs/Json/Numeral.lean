/-
An integer that was written is the number it is read as.

A written integer has a sign or none and digits without a needless zero, and
nothing after them, so its word is the numeral that `Json.toReading` has for it
(`ofWord?_signed`), and this numeral is that integer again (`int?_ofInt`).
-/
import WorkingTime.Json.Token
import WorkingTime.Proofs.Text.Decimal
import Mathlib.Data.List.TakeWhile

namespace WorkingTime

namespace Numeral

def ofInt (n : Int) : Numeral :=
  { negative := n < 0, whole := Text.decimal n.natAbs }

theorem takeDigits?_of_isDigit {s : List Char} (hne : s ≠ [])
    (h : ∀ c ∈ s, Text.isDigit c = true) : takeDigits? s = some (s, []) := by
  have htake : s.takeWhile Text.isDigit = s := List.takeWhile_eq_self_iff.mpr h
  have hdrop : s.dropWhile Text.isDigit = [] := List.dropWhile_eq_nil_iff.mpr h
  rw [takeDigits?, htake, hdrop]
  split
  · exact absurd rfl hne
  · rfl

theorem takeWhole?_decimal (n : Nat) :
    takeWhole? (Text.decimal n) = some (Text.decimal n, []) := by
  rw [takeWhole?, takeDigits?_of_isDigit (Text.decimal_ne_nil n) (Text.all_isDigit_decimal n)]
  split
  next heq =>
    simp only [Option.some.injEq, Prod.mk.injEq] at heq
    obtain rfl : n = 0 := by
      rw [← Text.decimal_head, heq.1]
      rfl
    have hzero : Text.decimal 0 = ['0'] := by
      rw [Text.decimal]
      rfl
    simp [hzero] at heq
  · rfl

theorem ofWord?_decimal (n : Nat) : ofWord? (Text.decimal n) = some (ofInt n) := by
  rw [ofWord?, takeWhole?_decimal]
  · simp [takeFraction?, exponent?, ofInt]
  · intro s heq
    have hdigit := Text.all_isDigit_decimal n '-' (heq ▸ List.mem_cons_self)
    exact absurd hdigit (by decide)

theorem ofWord?_minus (n : Nat) :
    ofWord? ('-' :: Text.decimal (n + 1)) = some (ofInt (.negSucc n)) := by
  simp only [ofWord?, takeWhole?_decimal]
  simp [takeFraction?, exponent?, ofInt]

theorem ofWord?_signed (n : Int) : ofWord? (Text.signed n) = some (ofInt n) := by
  cases n with
  | ofNat n => exact ofWord?_decimal n
  | negSucc n => exact ofWord?_minus n

theorem int?_ofInt (n : Int) : (ofInt n).int? = some n := by
  cases n with
  | ofNat n => simp [int?, isPlain, ofInt, Text.value_decimal]
  | negSucc n =>
      simp only [int?, isPlain, ofInt, Text.value_decimal]
      simp
      omega

end Numeral

theorem Token.ofWord_signed (n : Int) :
    ofWord (Text.signed n) = .scalar (Json.number n).toReading := by
  -- a name of letters is no written integer
  have hletter : ∀ c s, Text.signed n = c :: s → c ≠ '-' → Text.isDigit c = false → False := by
    intro c s heq hsign hdigit
    rcases Text.mem_signed (heq ▸ List.mem_cons_self : c ∈ Text.signed n) with hc | hc
    · exact hsign hc
    · exact absurd hc (by simp [hdigit])
  rw [ofWord, Numeral.ofWord?_signed]
  · rfl
  all_goals exact fun heq => hletter _ _ heq (by decide) (by decide)

end WorkingTime
