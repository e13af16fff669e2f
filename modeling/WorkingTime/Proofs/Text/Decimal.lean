/-
Reading back what decimal writing writes.

The digits of a number have its value (`value_decimal`), no needless zero
stands before them (`decimal_head`), and padding changes neither the value nor,
up to the width, the number of digits (`isNumeral_padded`).  What is taken off a
text are so many digits (`takeNumber?_eq_some_iff`), and no others stand for the
same number (`IsNumeral.padded_eq`).
-/
import WorkingTime.Text.Decimal
import Mathlib.Algebra.Order.Group.Nat
import Mathlib.Data.List.Basic
import Mathlib.Data.List.Induction

namespace WorkingTime.Text

/-! ## One digit -/

theorem digit_mod (n : Nat) : digit (n % 10) = digit n := by
  rw [digit, Nat.mod_mod, digit]

theorem isDigit_digit (n : Nat) : isDigit (digit n) = true := by
  rw [← digit_mod]
  have hall : ∀ k < 10, isDigit (digit k) = true := by decide
  exact hall _ (Nat.mod_lt n (by decide))

theorem digitValue_digit (n : Nat) : digitValue (digit n) = n % 10 := by
  rw [← digit_mod]
  have hall : ∀ k < 10, digitValue (digit k) = k := by decide
  exact hall _ (Nat.mod_lt n (by decide))

theorem digit_eq_zero_iff {n : Nat} : digit n = '0' ↔ n % 10 = 0 := by
  constructor
  · intro h
    rw [← digitValue_digit, h]
    rfl
  · intro h
    rw [← digit_mod, h]
    rfl

theorem digitValue_lt {c : Char} (h : isDigit c = true) : digitValue c < 10 := by
  simp only [isDigit, Bool.and_eq_true, decide_eq_true_eq] at h
  rw [digitValue]
  omega

theorem eq_of_digitValue_eq {c c' : Char} (h : isDigit c = true) (h' : isDigit c' = true)
    (heq : digitValue c = digitValue c') : c = c' := by
  simp only [isDigit, Bool.and_eq_true, decide_eq_true_eq] at h h'
  simp only [digitValue] at heq
  exact Char.toNat_inj.mp (by omega)

/-! ## The value of digits -/

theorem value_concat (s : List Char) (c : Char) :
    value (s ++ [c]) = 10 * value s + digitValue c := by
  simp [value]

theorem value_lt {s : List Char} (h : ∀ c ∈ s, isDigit c = true) : value s < 10 ^ s.length := by
  induction s using List.reverseRecOn with
  | nil => decide
  | append_singleton s c ih =>
      rw [List.forall_mem_append] at h
      have hs := ih h.1
      have hc := digitValue_lt (h.2 c (List.mem_singleton_self c))
      rw [value_concat, List.length_append, List.length_singleton, Nat.pow_succ]
      omega

/-- Of so many digits, only one run stands for a number. -/
theorem eq_of_value_eq {s s' : List Char} (h : ∀ c ∈ s, isDigit c = true)
    (h' : ∀ c ∈ s', isDigit c = true) (hlength : s.length = s'.length)
    (hvalue : value s = value s') : s = s' := by
  induction s using List.reverseRecOn generalizing s' with
  | nil => exact (List.length_eq_zero_iff.mp hlength.symm).symm
  | append_singleton s c ih =>
      obtain rfl | ⟨t, c', rfl⟩ := List.eq_nil_or_concat' s'
      · simp at hlength
      · rw [List.forall_mem_append] at h h'
        rw [value_concat, value_concat] at hvalue
        have hc := h.2 c (List.mem_singleton_self c)
        have hc' := h'.2 c' (List.mem_singleton_self c')
        have hlt := digitValue_lt hc
        have hlt' := digitValue_lt hc'
        rw [ih h.1 h'.1 (by simpa using hlength) (by omega),
          eq_of_digitValue_eq hc hc' (by omega)]

theorem value_decimal (n : Nat) : value (decimal n) = n := by
  fun_induction decimal n with
  | case1 n hlt =>
      show 10 * 0 + digitValue (digit n) = n
      rw [digitValue_digit]
      omega
  | case2 n hge ih =>
      rw [value_concat, ih, digitValue_digit]
      omega

theorem all_isDigit_decimal (n : Nat) : ∀ c ∈ decimal n, isDigit c = true := by
  fun_induction decimal n with
  | case1 n hlt =>
      intro c hc
      rw [List.mem_singleton.mp hc]
      exact isDigit_digit n
  | case2 n hge ih =>
      intro c hc
      rcases List.mem_append.mp hc with hc | hc
      · exact ih c hc
      · rw [List.mem_singleton.mp hc]
        exact isDigit_digit n

theorem decimal_ne_nil (n : Nat) : decimal n ≠ [] := by
  rw [decimal]
  split <;> simp

theorem decimal_head (n : Nat) : (decimal n).head? = some '0' ↔ n = 0 := by
  fun_induction decimal n with
  | case1 n hlt =>
      simp only [List.head?_cons, Option.some.injEq, digit_eq_zero_iff]
      omega
  | case2 n hge ih =>
      have hhead : (decimal (n / 10) ++ [digit n]).head? = (decimal (n / 10)).head? := by
        obtain ⟨c, s, hs⟩ := List.exists_cons_of_ne_nil (decimal_ne_nil (n / 10))
        rw [hs]
        rfl
      rw [hhead, ih]
      omega

theorem length_decimal_le {n : Nat} : ∀ {width : Nat}, 0 < width → n < 10 ^ width →
    (decimal n).length ≤ width := by
  fun_induction decimal n with
  | case1 n hlt =>
      intro width hpos _
      exact hpos
  | case2 n hge ih =>
      intro width hpos hlt
      obtain ⟨k, rfl⟩ : ∃ k, width = k + 1 := ⟨width - 1, by omega⟩
      have hk : 0 < k := by
        rcases Nat.eq_zero_or_pos k with rfl | hk
        · omega
        · exact hk
      have := ih hk (by rw [Nat.pow_succ] at hlt; omega)
      simpa using this

/-! ## Integers -/

theorem mem_signed {n : Int} {c : Char} (h : c ∈ signed n) : c = '-' ∨ isDigit c = true := by
  cases n with
  | ofNat n => exact .inr (all_isDigit_decimal n c h)
  | negSucc n => exact (List.mem_cons.mp h).imp_right (all_isDigit_decimal (n + 1) c)

theorem signed_ne_nil (n : Int) : signed n ≠ [] := by
  cases n with
  | ofNat n => exact decimal_ne_nil n
  | negSucc n => exact List.cons_ne_nil _ _

/-! ## Leading zeros -/

theorem value_replicate_zero (k : Nat) (s : List Char) :
    value (List.replicate k '0' ++ s) = value s := by
  induction k with
  | zero => rfl
  | succ k ih => exact ih

theorem value_padded (width n : Nat) : value (padded width n) = n := by
  rw [padded, value_replicate_zero, value_decimal]

theorem all_isDigit_padded (width n : Nat) : ∀ c ∈ padded width n, isDigit c = true := by
  intro c hc
  rcases List.mem_append.mp hc with hc | hc
  · rw [List.eq_of_mem_replicate hc]
    rfl
  · exact all_isDigit_decimal n c hc

theorem length_padded {width n : Nat} (hpos : 0 < width) (h : n < 10 ^ width) :
    (padded width n).length = width := by
  have := length_decimal_le hpos h
  rw [padded, List.length_append, List.length_replicate]
  omega

/-! ## Numerals -/

/-- These are `count` digits, and they stand for `n`. -/
structure IsNumeral (count n : Nat) (digits : List Char) : Prop where
  length_eq : digits.length = count
  isDigit : ∀ c ∈ digits, isDigit c = true
  value_eq : value digits = n

namespace IsNumeral

variable {count n : Nat} {digits : List Char}

theorem lt (h : IsNumeral count n digits) : n < 10 ^ count := by
  rw [← h.value_eq, ← h.length_eq]
  exact value_lt h.isDigit

theorem padded_eq (h : IsNumeral count n digits) (hpos : 0 < count) : padded count n = digits :=
  eq_of_value_eq (all_isDigit_padded count n) h.isDigit
    ((length_padded hpos h.lt).trans h.length_eq.symm)
    ((value_padded count n).trans h.value_eq.symm)

theorem exists_digit (h : IsNumeral (count + 1) n digits) :
    ∃ c rest, digits = c :: rest ∧ Text.isDigit c = true := by
  obtain ⟨c, rest, rfl⟩ := List.exists_cons_of_length_eq_add_one h.length_eq
  exact ⟨c, rest, rfl, h.isDigit c List.mem_cons_self⟩

theorem takeNumber?_append (h : IsNumeral count n digits) (rest : List Char) :
    takeNumber? count (digits ++ rest) = some (n, rest) := by
  obtain ⟨rfl, hdigits, rfl⟩ := h
  simp [takeNumber?, List.all_eq_true.mpr hdigits]

end IsNumeral

theorem isNumeral_padded {count n : Nat} (hpos : 0 < count) (h : n < 10 ^ count) :
    IsNumeral count n (padded count n) :=
  ⟨length_padded hpos h, all_isDigit_padded count n, value_padded count n⟩

theorem takeNumber?_eq_some_iff {count n : Nat} {s rest : List Char} :
    takeNumber? count s = some (n, rest) ↔
      ∃ digits, IsNumeral count n digits ∧ s = digits ++ rest := by
  constructor
  · intro h
    rw [takeNumber?] at h
    split at h
    next hdigits =>
      obtain ⟨rfl, rfl⟩ : value (s.take count) = n ∧ s.drop count = rest := by simpa using h
      exact ⟨s.take count, ⟨hdigits.1, List.all_eq_true.mp hdigits.2, rfl⟩,
        (List.take_append_drop count s).symm⟩
    · cases h
  · rintro ⟨digits, hdigits, rfl⟩
    exact hdigits.takeNumber?_append rest

end WorkingTime.Text
