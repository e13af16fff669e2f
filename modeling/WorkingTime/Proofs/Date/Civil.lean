/-
Every date is named by its year, month and day.

A day count falls apart into eras of four hundred years, centuries, spans of
four years, years, and a day of the year; `marchYear_parts` says so with the
bounds that the two capped quotients keep.  From the parts follow both that the
triple of a date is valid and that it names that date (`date?_civil`).
-/
import WorkingTime.Date.Civil
import Mathlib.Tactic.IntervalCases

namespace WorkingTime

/-! ## Years that begin in March -/

/-- A day count in eras, centuries, spans of four years, years and days.  The
last day of a year is there only in the last year of a span of four, and then
not at the end of the first three centuries of an era. -/
theorem Date.marchYear_parts (n : Nat) : ∃ era century four single day,
    marchYear n = (400 * era + 100 * century + 4 * four + single, day) ∧
      n = 146097 * era + 36524 * century + 1461 * four + 365 * single + day ∧
      century ≤ 3 ∧ four ≤ 24 ∧ single ≤ 3 ∧ day ≤ 365 ∧
      (day = 365 → single = 3 ∧ (four = 24 → century = 3)) := by
  have hn := Nat.div_add_mod n 146097
  have hera : n % 146097 < 146097 := Nat.mod_lt n (by decide)
  refine ⟨n / 146097, _, _, _, _, rfl, ?_⟩
  generalize n / 146097 = era at *
  generalize n % 146097 = inEra at *
  have hcentury : min 3 (inEra / 36524) ≤ 3 ∧ 36524 * min 3 (inEra / 36524) ≤ inEra ∧
      (inEra - 36524 * min 3 (inEra / 36524) < 36524 ∨
        inEra - 36524 * min 3 (inEra / 36524) = 36524 ∧ min 3 (inEra / 36524) = 3) := by
    omega
  generalize min 3 (inEra / 36524) = century at *
  have hfour := Nat.div_add_mod (inEra - 36524 * century) 1461
  have hspan : (inEra - 36524 * century) % 1461 < 1461 := Nat.mod_lt _ (by decide)
  generalize (inEra - 36524 * century) / 1461 = four at *
  generalize (inEra - 36524 * century) % 1461 = inFour at *
  omega

theorem Civil.yearStart_parts (era : Nat) {century four single : Nat} (hcentury : century ≤ 3)
    (hfour : four ≤ 24) (hsingle : single ≤ 3) :
    yearStart (400 * era + 100 * century + 4 * four + single) =
      146097 * era + 36524 * century + 1461 * four + 365 * single := by
  rw [yearStart]
  omega

/-! ## Months of such a year -/

theorem Civil.monthStart_le_lt {day : Nat} (h : day ≤ 365) :
    (5 * day + 2) / 153 ≤ 11 ∧ monthStart ((5 * day + 2) / 153) ≤ day ∧
      day < monthStart ((5 * day + 2) / 153 + 1) := by
  simp only [monthStart]
  omega

theorem Civil.length_month {m : Nat} (h : m ≤ 10) (year : Int) :
    monthStart (m + 1) - monthStart m = daysIn year ((m + 2) % 12 + 1) := by
  interval_cases m <;> rfl

/-! ## Dates and triples -/

namespace Date

theorem index_civil (d : Date) : d.civil.index = d.index := by
  obtain ⟨era, century, four, single, day, hyear, hn, hcentury, hfour, hsingle, hday, -⟩ :=
    marchYear_parts (d.index + Civil.marchOffset)
  obtain ⟨hm, hle, -⟩ := Civil.monthStart_le_lt hday
  have hstart := Civil.yearStart_parts era hcentury hfour hsingle
  simp only [civil, hyear, Civil.index]
  simp only [Civil.marchOffset] at hn ⊢
  generalize (5 * day + 2) / 153 = m at *
  generalize 400 * era + 100 * century + 4 * four + single = y at *
  have hmonth : ((m + 2) % 12 + 1 + 9) % 12 = m := by omega
  have hback : ((y : Int) + (m : Int) / 10 - 10000 + 10000).toNat - m / 10 = y := by omega
  rw [hmonth, hback, hstart]
  omega

theorem valid_civil (d : Date) : d.civil.Valid := by
  obtain ⟨era, century, four, single, day, hyear, hn, hcentury, hfour, hsingle, hday, hlast⟩ :=
    marchYear_parts (d.index + Civil.marchOffset)
  obtain ⟨hm, hle, hlt⟩ := Civil.monthStart_le_lt hday
  have hstart := Civil.yearStart_parts era hcentury hfour hsingle
  have hd := d.isLt
  simp only [civil, hyear, Civil.Valid]
  simp only [Civil.marchOffset, dayCount, Civil.yearStart] at hn hd hstart
  have hleap : day = 365 → Civil.isLeap
      ((400 * era + 100 * century + 4 * four + single : Nat) + 1 - 10000) = true := by
    intro hend
    obtain ⟨rfl, hcap⟩ := hlast hend
    simp only [Civil.isLeap, Bool.and_eq_true, Bool.or_eq_true, beq_iff_eq, bne_iff_ne]
    omega
  generalize hy : 400 * era + 100 * century + 4 * four + single = y at *
  have hfirst : y = 0 → 306 ≤ day := by omega
  have hfinal : 19999 ≤ y → y = 19999 ∧ day ≤ 305 := by omega
  generalize hmonth : (5 * day + 2) / 153 = m at *
  refine ⟨by omega, by omega, by omega, ?_⟩
  by_cases hfeb : m ≤ 10
  · rw [← Civil.length_month hfeb]
    omega
  · obtain rfl : m = 11 := by omega
    have hfebruary : (y : Int) + (11 : Nat) / 10 - 10000 = y + 1 - 10000 := by omega
    rw [hfebruary]
    show day - 337 + 1 ≤ if Civil.isLeap (y + 1 - 10000) then 29 else 28
    split
    · omega
    next hplain =>
      have : day ≠ 365 := fun hend => hplain (hleap hend)
      omega

theorem date?_civil (d : Date) : d.civil.date? = some d := by
  rw [Civil.date?, if_pos d.valid_civil, index_civil, ofIndex?, dif_pos d.isLt]

end Date

end WorkingTime
