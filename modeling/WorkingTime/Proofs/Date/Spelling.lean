/-
Which texts are dates, and which texts a date has.

Reading accepts the texts that spell an existing day, with blanks around them, and no
others (`Date.exists_parse_iff`).  Of the signs before a year a plus says nothing, and a
minus before four zeros neither; without such a sign a text that spells a date is the one
that is written for it (`Civil.withoutIdleSign_eq_text`).  So a date has one text but for
blanks and idle signs (`Date.one_text_per_date`).
-/
import WorkingTime.Proofs.Date.Order

namespace WorkingTime

namespace Civil

variable {s : List Char} {year : Int} {c : Civil}

/-! ## Days that exist -/

/-- The triples that name a day of some year. -/
def NamesDay (c : Civil) : Prop :=
  (1 ≤ c.month ∧ c.month ≤ 12) ∧ 1 ≤ c.day ∧ c.day ≤ daysIn c.year c.month

theorem SpellsYear.bounds (h : SpellsYear s year) : -9999 ≤ year ∧ year ≤ 9999 := by
  cases h with
  | unsigned h | plus h | minus h =>
      have hlt := h.lt
      omega

theorem Spells.valid_iff (h : Spells s c) : c.Valid ↔ c.NamesDay := by
  obtain ⟨hyear, -, -⟩ := h
  exact and_iff_right hyear.bounds

/-! ## Signs that say nothing -/

/-- A text without the plus at its head, or the minus when four zeros follow it. -/
def withoutIdleSign : List Char → List Char
  | '+' :: rest => rest
  | '-' :: rest => if rest.take 4 = List.replicate 4 '0' then rest else '-' :: rest
  | s => s

theorem withoutIdleSign_of_isDigit {x : Char} (h : Text.isDigit x = true) :
    withoutIdleSign (x :: s) = x :: s := by
  rw [withoutIdleSign]
  · rintro _ ⟨⟩
    exact absurd h (by decide)
  · rintro _ ⟨⟩
    exact absurd h (by decide)

theorem isNumeral_zero_iff {n : Nat} {digits : List Char} (h : Text.IsNumeral 4 n digits) :
    digits = List.replicate 4 '0' ↔ n = 0 := by
  have hzero : Text.IsNumeral 4 0 (List.replicate 4 '0') :=
    ⟨rfl, fun x hx => List.eq_of_mem_replicate hx ▸ rfl, rfl⟩
  constructor
  · rintro rfl
    exact h.value_eq.symm.trans hzero.value_eq
  · rintro rfl
    rw [← h.padded_eq (by decide), hzero.padded_eq (by decide)]

theorem SpellsYear.withoutIdleSign_eq (h : SpellsYear s year) (rest : List Char) :
    withoutIdleSign (s ++ rest) = yearText year ++ rest := by
  cases h with
  | @unsigned digits n h =>
      have hpositive : ¬ (n : Int) < 0 := by omega
      rw [yearText, if_neg hpositive, Int.natAbs_natCast, h.padded_eq (by decide)]
      obtain ⟨x, digits, rfl, hx⟩ := h.exists_digit
      exact withoutIdleSign_of_isDigit hx
  | @plus digits n h =>
      have hpositive : ¬ (n : Int) < 0 := by omega
      rw [yearText, if_neg hpositive, Int.natAbs_natCast, h.padded_eq (by decide)]
      rfl
  | @minus digits n h =>
      have htake : (digits ++ rest).take 4 = digits := by
        rw [← h.length_eq, List.take_left]
      rw [yearText, Int.natAbs_neg, Int.natAbs_natCast, h.padded_eq (by decide),
        List.cons_append, withoutIdleSign, htake]
      by_cases hzero : n = 0
      · rw [if_pos ((isNumeral_zero_iff h).mpr hzero), if_neg (by omega)]
        rfl
      · rw [if_neg (mt (isNumeral_zero_iff h).mp hzero), if_pos (by omega)]
        rfl

theorem withoutIdleSign_eq_text (h : Spells s c) : withoutIdleSign s = c.text := by
  obtain ⟨hyear, hmonth, hday⟩ := h
  rw [hyear.withoutIdleSign_eq, text, hmonth.padded_eq (by decide), hday.padded_eq (by decide),
    List.append_assoc]
  rfl

end Civil

/-! ## The texts of a date -/

namespace Date

variable {d d' : Date} {t t' : String}

theorem parse_eq_ok_iff : parse t = .ok d ↔ Civil.Spells (Text.trim t.toList) d.civil := by
  rw [parse, Answer.mapError_eq_ok_iff, ofText, Answer.bind_eq_ok_iff]
  simp only [Civil.ofText_eq_ok_iff]
  constructor
  · rintro ⟨c, ⟨hspells, -⟩, hdate⟩
    split at hdate
    next e he =>
      cases hdate
      exact Civil.date?_eq_some_iff.mp he ▸ hspells
    · cases hdate
  · intro hspells
    obtain ⟨-, hmonth, hday⟩ := d.valid_civil
    have hlast := Civil.daysIn_le d.civil.year d.civil.month
    refine ⟨d.civil, ⟨hspells, hmonth, hday.1, hday.2.trans hlast⟩, ?_⟩
    rw [date?_civil]
    rfl

theorem exists_parse_iff : (∃ d, parse t = .ok d) ↔
    ∃ c : Civil, Civil.Spells (Text.trim t.toList) c ∧ c.NamesDay := by
  simp only [parse_eq_ok_iff]
  constructor
  · rintro ⟨d, hspells⟩
    exact ⟨d.civil, hspells, hspells.valid_iff.mp d.valid_civil⟩
  · rintro ⟨c, hspells, hday⟩
    obtain ⟨d, rfl⟩ := exists_civil_eq (hspells.valid_iff.mpr hday)
    exact ⟨d, hspells⟩

theorem text_of_parse (h : parse t = .ok d) :
    d.text.toList = Civil.withoutIdleSign (Text.trim t.toList) := by
  rw [Civil.withoutIdleSign_eq_text (parse_eq_ok_iff.mp h), text, String.toList_ofList]

theorem eq_of_text_eq (h : d.text = d'.text) : d = d' := by
  have hparse := parse_text d
  rw [h, parse_text d'] at hparse
  exact (Except.ok.inj hparse).symm

theorem parse_blanks {u w : String} (hu : ∀ x ∈ u.toList, Text.isBlank x = true)
    (hw : ∀ x ∈ w.toList, Text.isBlank x = true) (t : String) :
    parse (u ++ t ++ w) = .ok d ↔ parse t = .ok d := by
  rw [parse_eq_ok_iff, parse_eq_ok_iff, String.toList_append, String.toList_append,
    Text.trim_blanks hu hw]

/-- The text of a date is read back, with any blanks around it.  A text is read as a date
when it spells an existing day between blanks, and then it is the text of the date but for
an idle sign; so two texts are of one date when they differ in blanks and such a sign. -/
theorem one_text_per_date (d d' : Date) (t t' : String) :
    (∀ u w : String, (∀ x ∈ u.toList, Text.isBlank x = true) →
      (∀ x ∈ w.toList, Text.isBlank x = true) → parse (u ++ d.text ++ w) = .ok d) ∧
    ((∃ e, parse t = .ok e) ↔
      ∃ c : Civil, Civil.Spells (Text.trim t.toList) c ∧ c.NamesDay) ∧
    (parse t = .ok d → Civil.Spells (Text.trim t.toList) d.civil ∧
      d.text.toList = Civil.withoutIdleSign (Text.trim t.toList)) ∧
    (parse t = .ok d → parse t' = .ok d' →
      (d = d' ↔ Civil.withoutIdleSign (Text.trim t.toList) =
        Civil.withoutIdleSign (Text.trim t'.toList))) := by
  refine ⟨?_, exists_parse_iff, ?_, ?_⟩
  · intro u w hu hw
    exact (parse_blanks hu hw d.text).mpr (parse_text d)
  · intro h
    exact ⟨parse_eq_ok_iff.mp h, text_of_parse h⟩
  · intro h h'
    rw [← text_of_parse h, ← text_of_parse h']
    constructor
    · rintro rfl
      rfl
    · intro hsame
      exact eq_of_text_eq (String.toList_inj.mp hsame)

/-- 29 February of the year 0, which is a leap year. -/
def leapDayOfYearZero : Date :=
  ⟨Civil.index ⟨0, 2, 29⟩, by decide⟩

/-- The leap day of the year 0 has texts with both signs, and without a sign both are as
the date is written. -/
theorem one_text_per_date_yearZero :
    parse ("\t" ++ leapDayOfYearZero.text ++ "\u3000") = .ok leapDayOfYearZero ∧
      Civil.Spells (Text.trim "+0000-02-29\n".toList) leapDayOfYearZero.civil ∧
      leapDayOfYearZero.text.toList = Civil.withoutIdleSign "-0000-02-29".toList ∧
      Civil.withoutIdleSign (Text.trim "+0000-02-29\n".toList) =
        Civil.withoutIdleSign (Text.trim " -0000-02-29".toList) := by
  have hplus : parse "+0000-02-29\n" = .ok leapDayOfYearZero := by decide +kernel
  have hminus : parse " -0000-02-29" = .ok leapDayOfYearZero := by decide +kernel
  obtain ⟨hread, -, hspells, hsame⟩ :=
    one_text_per_date leapDayOfYearZero leapDayOfYearZero "+0000-02-29\n" " -0000-02-29"
  obtain ⟨-, -, hwritten, -⟩ :=
    one_text_per_date leapDayOfYearZero leapDayOfYearZero " -0000-02-29" "+0000-02-29\n"
  refine ⟨?_, (hspells hplus).1, ?_, ?_⟩
  · exact hread "\t" "\u3000" (List.all_eq_true.mp rfl) (List.all_eq_true.mp rfl)
  · exact (hwritten hminus).2
  · exact (hsame hplus hminus).mp rfl

end Date

end WorkingTime
