/-
Dates are in the order of the calendar.

Dates are compared by their indices.  The index of a day lies between those of the first
days of its year and of the next one, and within a year it grows with the month and with
the day, so the order of the indices is that of years, months and days, where years are
compared as numbers (`Date.lt_iff_before`).  Hence different days have different indices,
and every day of the supported years is a date (`Date.exists_civil_eq`).
-/
import WorkingTime.Proofs.Date.Range
import WorkingTime.Proofs.Date.Written

namespace WorkingTime

namespace Civil

/-- Earlier in the calendar: by year, then by month, then by the day of the month. -/
def Before (a b : Civil) : Prop :=
  a.year < b.year ∨ a.year = b.year ∧ (a.month < b.month ∨ a.month = b.month ∧ a.day < b.day)

theorem before_trichotomy (a b : Civil) : a.Before b ∨ a = b ∨ b.Before a := by
  obtain ⟨year, month, day⟩ := a
  obtain ⟨year', month', day'⟩ := b
  simp only [Before, mk.injEq]
  omega

variable {c c' : Civil} {y : Nat}

/-! ## Indices within a year -/

theorem index_of_winter (hmonth : 1 ≤ c.month ∧ c.month ≤ 2) (hyear : c.year + 10000 = y + 1) :
    c.index = yearStart y + 31 * (c.month - 1) + (c.day - 1) := by
  have hback : (c.year + 10000).toNat = y + 1 := by omega
  rcases (by omega : c.month = 1 ∨ c.month = 2) with hm | hm
  all_goals
    simp only [index, hback, hm, monthStart, marchOffset, Nat.reduceAdd, Nat.reduceMod,
      Nat.reduceDiv, Nat.reduceMul, Nat.reduceSub, Nat.add_sub_cancel]
    omega

theorem index_of_march (h : c.Valid) (hmonth : 3 ≤ c.month) (hyear : c.year + 10000 = y + 1) :
    c.index + marchOffset = yearStart (y + 1) + monthStart (c.month - 3) + (c.day - 1) := by
  have hoffset := marchOffset_le h
  have hlast := h.2.1.2
  have hback : (c.year + 10000).toNat = y + 1 := by omega
  have hm : (c.month + 9) % 12 = c.month - 3 := by omega
  have hten : (c.month - 3) / 10 = 0 := by omega
  simp only [index, hback, hm, hten, Nat.sub_zero] at hoffset ⊢
  omega

theorem day_le (h : c.Valid) (hmonth : 3 ≤ c.month) :
    monthStart (c.month - 3) + c.day ≤ monthStart (c.month - 3 + 1) := by
  obtain ⟨-, ⟨-, hlast⟩, -, hday⟩ := h
  have hlength := length_month (m := c.month - 3) (by omega) c.year
  have hback : (c.month - 3 + 2) % 12 + 1 = c.month := by omega
  rw [hback] at hlength
  simp only [monthStart] at hlength ⊢
  omega

theorem monthStart_mono {m m' : Nat} (h : m ≤ m') : monthStart m ≤ monthStart m' := by
  simp only [monthStart]
  omega

theorem yearStart_mono : Monotone yearStart := by
  refine monotone_nat_of_le_succ ?_
  intro y
  rw [yearStart_succ]
  omega

theorem february_le (h : c.Valid) (hmonth : c.month ≤ 2) (hyear : c.year + 10000 = y + 1) :
    31 * (c.month - 1) + c.day ≤ 31 + daysIn (y + 1 - 10000) 2 := by
  obtain ⟨-, ⟨hfirst, -⟩, -, hday⟩ := h
  have hy : c.year = y + 1 - 10000 := by omega
  rcases (by omega : c.month = 1 ∨ c.month = 2) with hm | hm
  · rw [hm] at hday ⊢
    have := daysIn_le c.year 1
    omega
  · rw [hm, hy] at hday
    rw [hm]
    omega

theorem index_bounds (h : c.Valid) (hyear : c.year + 10000 = y + 1) :
    yearStart y ≤ c.index ∧ c.index < yearStart (y + 1) := by
  have hnext := yearStart_succ (y := y)
  have hfebruary := daysIn_le (y + 1 - 10000) 2
  have heleven : monthStart 11 = 337 := rfl
  have hfirst := h.2.1.1
  have hlast := h.2.1.2
  have hpos := h.2.2.1
  by_cases hwinter : c.month ≤ 2
  · have hday := february_le h hwinter hyear
    rw [index_of_winter ⟨hfirst, hwinter⟩ hyear]
    omega
  · have hday := day_le h (by omega)
    have hindex := index_of_march h (by omega) hyear
    have hten : monthStart (c.month - 3 + 1) ≤ monthStart 10 := monthStart_mono (by omega)
    rw [show monthStart 10 = 306 from rfl] at hten
    rw [marchOffset] at hindex
    omega

/-! ## The order -/

theorem Valid.exists_year (h : c.Valid) : ∃ y : Nat, c.year + 10000 = y + 1 := by
  have hlow := h.1.1
  exact ⟨(c.year + 9999).toNat, by omega⟩

theorem index_lt_of_year (h : c.Valid) (h' : c'.Valid) (hyear : c.year < c'.year) :
    c.index < c'.index := by
  obtain ⟨y, hy⟩ := h.exists_year
  obtain ⟨y', hy'⟩ := h'.exists_year
  calc c.index
      < yearStart (y + 1) := (index_bounds h hy).2
    _ ≤ yearStart y' := yearStart_mono (by omega)
    _ ≤ c'.index := (index_bounds h' hy').1

theorem index_lt_of_month (h : c.Valid) (h' : c'.Valid) (hyear : c.year = c'.year)
    (hmonth : c.month < c'.month) : c.index < c'.index := by
  obtain ⟨y, hy⟩ := h.exists_year
  have hy' : c'.year + 10000 = y + 1 := hyear ▸ hy
  have hpos := h.2.2.1
  have hfirst := h.2.1.1
  have hfirst' := h'.2.1.1
  by_cases hwinter' : c'.month ≤ 2
  · have hjanuary : c.day ≤ 31 := Nat.le_trans h.2.2.2 (daysIn_le _ _)
    rw [index_of_winter ⟨hfirst, by omega⟩ hy, index_of_winter ⟨hfirst', hwinter'⟩ hy']
    omega
  · have hindex' := index_of_march h' (by omega) hy'
    by_cases hwinter : c.month ≤ 2
    · have hfebruary := february_le h hwinter hy
      have hnext := yearStart_succ (y := y)
      rw [show monthStart 11 = 337 from rfl] at hnext
      rw [index_of_winter ⟨hfirst, hwinter⟩ hy]
      rw [marchOffset] at hindex'
      omega
    · have hday := day_le h (by omega)
      have hindex := index_of_march h (by omega) hy
      have hlater : monthStart (c.month - 3 + 1) ≤ monthStart (c'.month - 3) :=
        monthStart_mono (by omega)
      omega

theorem index_lt_of_day (hyear : c.year = c'.year) (hmonth : c.month = c'.month)
    (h : c.Valid) (hday : c.day < c'.day) : c.index < c'.index := by
  have hoffset := marchOffset_le h
  have hpos := h.2.2.1
  simp only [index, ← hyear, ← hmonth]
  omega

theorem index_lt_of_before (h : c.Valid) (h' : c'.Valid) (hbefore : c.Before c') :
    c.index < c'.index := by
  rcases hbefore with hyear | ⟨hyear, hmonth | ⟨hmonth, hday⟩⟩
  · exact index_lt_of_year h h' hyear
  · exact index_lt_of_month h h' hyear hmonth
  · exact index_lt_of_day hyear hmonth h hday

end Civil

theorem Date.lt_iff_before {a b : Date} : a < b ↔ a.civil.Before b.civil := by
  have hlt : ∀ {a b : Date}, a.civil.Before b.civil → a.index < b.index := by
    intro a b h
    rw [← index_civil a, ← index_civil b]
    exact Civil.index_lt_of_before a.valid_civil b.valid_civil h
  rw [lt_iff]
  refine ⟨fun h => ?_, hlt⟩
  rcases Civil.before_trichotomy a.civil b.civil with hbefore | heq | hafter
  · exact hbefore
  · rw [← index_civil a, heq, index_civil b] at h
    exact absurd h (Nat.lt_irrefl _)
  · exact absurd h (Nat.lt_asymm (hlt hafter))

/-! ## Every day is a date -/

namespace Civil

variable {c c' : Civil}

theorem eq_of_index_eq (h : c.Valid) (h' : c'.Valid) (heq : c.index = c'.index) : c = c' := by
  rcases before_trichotomy c c' with hbefore | hsame | hafter
  · exact absurd heq (Nat.ne_of_lt (index_lt_of_before h h' hbefore))
  · exact hsame
  · exact absurd heq.symm (Nat.ne_of_lt (index_lt_of_before h' h hafter))

theorem index_lt_dayCount (h : c.Valid) : c.index < dayCount := by
  obtain ⟨y, hy⟩ := h.exists_year
  have hyear := h.1.2
  calc c.index
      < yearStart (y + 1) := (index_bounds h hy).2
    _ ≤ yearStart 19999 := yearStart_mono (by omega)
    _ = dayCount := rfl

theorem date?_eq_some_iff {d : Date} : c.date? = some d ↔ d.civil = c := by
  constructor
  · intro h
    rw [date?] at h
    split at h
    next hvalid =>
      refine eq_of_index_eq d.valid_civil hvalid ?_
      rw [Date.index_civil, Date.index_of_ofIndex? h]
    · cases h
  · rintro rfl
    exact d.date?_civil

end Civil

theorem Date.exists_civil_eq {c : Civil} (h : c.Valid) : ∃ d : Date, d.civil = c := by
  have hdate : c.date? = some ⟨c.index, Civil.index_lt_dayCount h⟩ := by
    rw [Civil.date?, if_pos h, ofIndex?, dif_pos]
  exact ⟨_, Civil.date?_eq_some_iff.mp hdate⟩

end WorkingTime
