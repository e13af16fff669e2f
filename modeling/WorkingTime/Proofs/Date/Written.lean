/-
The form of a date, and the written form is read back.

`Civil.Spells` is the form character by character: a year of four digits, after a sign
if there is one, a month of two and a day of two.  Each reader of a part takes off
exactly what spells that part, so that a text is read as the triple that it spells
(`Civil.ofText_eq_ok_iff`), and the written form spells the triple it is written for;
trimming takes nothing off, since there are no blanks in it (`Date.ofText_text`).
Other texts of a date may have blanks around it and a plus, which say nothing
(`Date.eq_of_bareText_eq`).
-/
import WorkingTime.Proofs.Answer
import WorkingTime.Proofs.Date.Civil
import WorkingTime.Proofs.Text.Blank
import WorkingTime.Proofs.Text.Decimal
import WorkingTime.RuleError

namespace WorkingTime

theorem Text.isBlank_of_isDigit {c : Char} (h : isDigit c = true) : isBlank c = false := by
  simp only [isDigit, Bool.and_eq_true, decide_eq_true_eq] at h
  simp [isBlank, blankRanges]
  omega

namespace Civil

/-! ## The form of a date -/

/-- A year as text: four digits, and a sign before them or none. -/
inductive SpellsYear : List Char → Int → Prop
  | unsigned {digits : List Char} {n : Nat} (h : Text.IsNumeral 4 n digits) :
      SpellsYear digits n
  | plus {digits : List Char} {n : Nat} (h : Text.IsNumeral 4 n digits) :
      SpellsYear ('+' :: digits) n
  | minus {digits : List Char} {n : Nat} (h : Text.IsNumeral 4 n digits) :
      SpellsYear ('-' :: digits) (-n)

/-- A year, a month of two digits and a day of two digits, with hyphens between them. -/
inductive Spells : List Char → Civil → Prop
  | parts {year month day : List Char} {c : Civil} (hyear : SpellsYear year c.year)
      (hmonth : Text.IsNumeral 2 c.month month) (hday : Text.IsNumeral 2 c.day day) :
      Spells (year ++ '-' :: (month ++ '-' :: day)) c

variable {s rest : List Char} {c : Civil}

/-! ## Reading takes off what spells a part -/

theorem takeYear_of_isDigit {x : Char} {n : Nat} (hx : Text.isDigit x = true)
    (h : Text.takeNumber? 4 (x :: s) = some (n, rest)) :
    takeYear (x :: s) = .ok ((n : Int), rest) := by
  rw [takeYear, h]
  · rfl
  · rintro _ ⟨⟩
    exact absurd hx (by decide)
  · rintro _ ⟨⟩
    exact absurd hx (by decide)

theorem takeYear_eq_ok_iff {year : Int} : takeYear s = .ok (year, rest) ↔
    ∃ text, SpellsYear text year ∧ s = text ++ rest := by
  constructor
  · intro h
    simp only [takeYear] at h
    split at h
    next htake =>
      cases h
      split at htake
      next after =>
        obtain ⟨digits, hdigits, hafter⟩ := Text.takeNumber?_eq_some_iff.mp htake
        exact ⟨'-' :: digits, .minus hdigits, congrArg ('-' :: ·) hafter⟩
      next after =>
        obtain ⟨digits, hdigits, hafter⟩ := Text.takeNumber?_eq_some_iff.mp htake
        exact ⟨'+' :: digits, .plus hdigits, congrArg ('+' :: ·) hafter⟩
      next hminus hplus =>
        obtain ⟨digits, hdigits, hs⟩ := Text.takeNumber?_eq_some_iff.mp htake
        exact ⟨digits, .unsigned hdigits, hs⟩
    · cases h
  · rintro ⟨text, hyear, rfl⟩
    cases hyear with
    | unsigned h =>
        have htake := h.takeNumber?_append rest
        obtain ⟨x, digits, rfl, hx⟩ := h.exists_digit
        exact takeYear_of_isDigit hx htake
    | plus h =>
        simp only [takeYear, List.cons_append, h.takeNumber?_append]
        rfl
    | minus h =>
        simp only [takeYear, List.cons_append, h.takeNumber?_append]
        rfl

theorem takeHyphen_eq_ok_iff : takeHyphen s = .ok rest ↔ s = '-' :: rest := by
  constructor
  · intro h
    rw [takeHyphen.eq_def] at h
    split at h
    · cases h
      rfl
    · cases h
  · rintro rfl
    rfl

theorem takePart_eq_ok_iff {last n : Nat} {fault : DateFault} :
    takePart last fault s = .ok (n, rest) ↔
      ∃ digits, Text.IsNumeral 2 n digits ∧ s = digits ++ rest ∧ 1 ≤ n ∧ n ≤ last := by
  rw [takePart]
  constructor
  · intro h
    split at h
    next m after htake =>
      obtain ⟨digits, hdigits, hs⟩ := Text.takeNumber?_eq_some_iff.mp htake
      split at h
      next hrange =>
        cases h
        exact ⟨digits, hdigits, hs, hrange⟩
      · cases h
    · cases h
  · rintro ⟨digits, hdigits, rfl, hrange⟩
    rw [hdigits.takeNumber?_append]
    exact if_pos hrange

/-- A text is read as the triple that it spells.  The day is only asked to be one of
some month. -/
theorem ofText_eq_ok_iff : ofText s = .ok c ↔
    Spells s c ∧ (1 ≤ c.month ∧ c.month ≤ 12) ∧ 1 ≤ c.day ∧ c.day ≤ 31 := by
  simp only [ofText, Answer.bind_eq_ok_iff, Prod.exists, takeYear_eq_ok_iff,
    takeHyphen_eq_ok_iff, takePart_eq_ok_iff, Answer.require_eq_ok_iff,
    Answer.pure_eq_ok_iff, List.isEmpty_iff]
  constructor
  · rintro ⟨year, _, ⟨yearText, hyear, rfl⟩, _, rfl, month, _,
      ⟨monthText, hmonth, rfl, hmonths⟩, _, rfl, day, _, ⟨dayText, hday, rfl, hdays⟩, rfl, rfl⟩
    rw [List.append_nil]
    exact ⟨.parts hyear hmonth hday, hmonths, hdays⟩
  · rintro ⟨@⟨yearText, monthText, dayText, c, hyear, hmonth, hday⟩, hmonths, hdays⟩
    exact ⟨c.year, _, ⟨yearText, hyear, rfl⟩, _, rfl, c.month, _,
      ⟨monthText, hmonth, rfl, hmonths⟩, _, rfl, c.day, [],
      ⟨dayText, hday, (List.append_nil dayText).symm, hdays⟩, rfl, rfl⟩

/-! ## The written form -/

theorem daysIn_le (year : Int) (month : Nat) : daysIn year month ≤ 31 := by
  unfold daysIn
  split
  · split <;> decide
  all_goals decide

theorem spellsYear_yearText {year : Int} (h : year.natAbs < 10 ^ 4) :
    SpellsYear (yearText year) year := by
  have hdigits := Text.isNumeral_padded (by decide) h
  rw [yearText]
  by_cases hneg : year < 0
  · have hminus := SpellsYear.minus hdigits
    rw [show -(year.natAbs : Int) = year by omega] at hminus
    rw [if_pos hneg]
    exact hminus
  · have hunsigned := SpellsYear.unsigned hdigits
    rw [show (year.natAbs : Int) = year by omega] at hunsigned
    rw [if_neg hneg]
    exact hunsigned

theorem spells_text (h : c.Valid) : Spells c.text c := by
  obtain ⟨hyear, hmonth, hday⟩ := h
  have hlast := daysIn_le c.year c.month
  rw [text, List.append_assoc]
  exact .parts (spellsYear_yearText (by omega)) (Text.isNumeral_padded (by decide) (by omega))
    (Text.isNumeral_padded (by decide) (by omega))

theorem ofText_text (h : c.Valid) : ofText c.text = .ok c :=
  ofText_eq_ok_iff.mpr
    ⟨spells_text h, h.2.1, h.2.2.1, h.2.2.2.trans (daysIn_le c.year c.month)⟩

theorem mem_text {x : Char} (h : x ∈ c.text) : Text.isDigit x = true ∨ x = '-' := by
  simp only [text, yearText, List.mem_append, List.mem_cons] at h
  rcases h with ((h | h) | h | h) | h | h
  · split at h
    · exact .inr (List.mem_singleton.mp h)
    · exact absurd h List.not_mem_nil
  · exact .inl (Text.all_isDigit_padded _ _ x h)
  · exact .inr h
  · exact .inl (Text.all_isDigit_padded _ _ x h)
  · exact .inr h
  · exact .inl (Text.all_isDigit_padded _ _ x h)

end Civil

namespace Date

theorem ofText_text (d : Date) : ofText d.text = .ok d := by
  have hblank : ∀ x ∈ d.civil.text, Text.isBlank x = false := by
    intro x hx
    rcases Civil.mem_text hx with hx | rfl
    · exact Text.isBlank_of_isDigit hx
    · rfl
  have htrim : Text.trim d.civil.text = d.civil.text :=
    Text.trim_eq_self_iff.mpr ⟨fun x hx => hblank x (List.mem_of_mem_head? hx),
      fun x hx => hblank x (List.mem_of_getLast? hx)⟩
  rw [ofText, text, String.toList_ofList, htrim]
  refine Answer.bind_eq_ok_iff.mpr ⟨_, Civil.ofText_text d.valid_civil, ?_⟩
  rw [date?_civil]
  rfl

theorem parse_text (d : Date) : parse d.text = .ok d := by
  rw [parse, ofText_text]
  rfl

end Date

/-! ## Other texts of a date -/

namespace Civil

/-- A text without the plus at its head. -/
def withoutPlus : List Char → List Char
  | '+' :: rest => rest
  | s => s

theorem Spells.withoutPlus {s : List Char} {c : Civil} (h : Spells s c) :
    Spells (withoutPlus s) c := by
  obtain ⟨hyear, hmonth, hday⟩ := h
  rw [withoutPlus.eq_def]
  split
  next rest hplus =>
    generalize htext : c.year = year at hyear
    cases hyear with
    | unsigned h =>
        obtain ⟨x, digits, rfl, hx⟩ := h.exists_digit
        cases hplus
        exact absurd hx (by decide)
    | plus h =>
        cases hplus
        exact .parts (htext ▸ .unsigned h) hmonth hday
    | minus h => cases hplus
  · exact .parts hyear hmonth hday

theorem ofText_withoutPlus {s : List Char} {c : Civil} (h : ofText s = .ok c) :
    ofText (withoutPlus s) = .ok c := by
  obtain ⟨hspells, hparts⟩ := ofText_eq_ok_iff.mp h
  exact ofText_eq_ok_iff.mpr ⟨hspells.withoutPlus, hparts⟩

end Civil

namespace Date

/-- A text without the blanks around it and without the plus before what is left. -/
def bareText (text : String) : List Char :=
  Civil.withoutPlus (Text.trim text.toList)

theorem civil_of_parse {text : String} {d : Date} (h : parse text = .ok d) :
    ∃ c : Civil, Civil.ofText (bareText text) = .ok c ∧ c.date? = some d := by
  obtain ⟨c, hc, hdate⟩ := Answer.bind_eq_ok_iff.mp (Answer.mapError_eq_ok_iff.mp h)
  refine ⟨c, Civil.ofText_withoutPlus hc, ?_⟩
  split at hdate
  next d' hd' => rw [hd', Answer.pure_eq_ok_iff.mp hdate]
  · cases hdate

/-- Texts that differ only in blanks around the date and in a plus are texts of one date. -/
theorem eq_of_bareText_eq {text text' : String} {d d' : Date} (h : parse text = .ok d)
    (h' : parse text' = .ok d') (hbare : bareText text = bareText text') : d = d' := by
  obtain ⟨c, hc, hdate⟩ := civil_of_parse h
  obtain ⟨c', hc', hdate'⟩ := civil_of_parse h'
  obtain rfl : c = c' := Except.ok.inj (hc.symm.trans (hbare ▸ hc'))
  exact Option.some.inj (hdate.symm.trans hdate')

end Date

end WorkingTime
