/-
The week around a date, at both ends of the supported dates.

Weekdays follow each other from day to day, and one day whose weekday is known settles all
of them (`weekdaysOfCalendar_iff`).  Going back to a Monday and on to a Sunday day by day
comes to the bounds that are computed, and going back never leaves the supported dates,
since the first of them is a Monday (`weekBoundsByDays_eq`).  Going on leaves them from the
last five days alone.
-/
import WorkingTime.Proofs.Date.Order

namespace WorkingTime

/-! ## Weekdays -/

namespace Weekday

def next : Weekday → Weekday
  | monday => tuesday | tuesday => wednesday | wednesday => thursday
  | thursday => friday | friday => saturday | saturday => sunday
  | sunday => monday

theorem index_ofIndex (n : Nat) : (ofIndex n).index = n % 7 := by
  have hlt : n % 7 < 7 := Nat.mod_lt n (by decide)
  rw [ofIndex]
  generalize n % 7 = k at *
  interval_cases k <;> rfl

theorem ofIndex_eq_iff {n : Nat} {w : Weekday} : ofIndex n = w ↔ n % 7 = w.index := by
  constructor
  · rintro rfl
    exact (index_ofIndex n).symm
  · intro h
    rw [ofIndex, h]
    cases w <;> rfl

theorem index_lt (w : Weekday) : w.index < 7 := by
  cases w <;> decide

theorem index_next (w : Weekday) : w.next.index = (w.index + 1) % 7 := by
  cases w <;> rfl

theorem ofIndex_succ (n : Nat) : ofIndex (n + 1) = (ofIndex n).next := by
  rw [ofIndex_eq_iff, index_next, index_ofIndex]
  omega

end Weekday

/-! ## The day before -/

namespace Civil

/-- The day before a date by its year, month and day. -/
def previous (c : Civil) : Civil :=
  if 1 < c.day then { c with day := c.day - 1 }
  else if 1 < c.month then
    { c with month := c.month - 1, day := daysIn c.year (c.month - 1) }
  else { year := c.year - 1, month := 12, day := 31 }

def first : Civil :=
  { year := -9999, month := 1, day := 1 }

theorem next_previous {c : Civil} (h : c.Valid) (hfirst : c ≠ first) :
    c.previous.Valid ∧ c.previous.next = c := by
  obtain ⟨⟨hlow, hhigh⟩, ⟨hm, hm'⟩, hd, hd'⟩ := h
  obtain ⟨year, month, day⟩ := c
  simp only at hlow hhigh hm hm' hd hd'
  simp only [previous]
  split
  next hday =>
    refine ⟨⟨⟨hlow, hhigh⟩, ⟨hm, hm'⟩, ?_⟩, ?_⟩
    · simp only
      omega
    · have hbefore : day - 1 < daysIn year month := by omega
      rw [next, if_pos hbefore]
      simp only [mk.injEq, true_and]
      omega
  next hday =>
    obtain rfl : day = 1 := by omega
    split
    next hmonth =>
      refine ⟨⟨⟨hlow, hhigh⟩, ?_, daysIn_pos _ _, Nat.le_refl _⟩, ?_⟩
      · simp only
        omega
      · have hyear : month - 1 < 12 := by omega
        rw [next, if_neg (Nat.lt_irrefl _), if_pos hyear]
        simp only [mk.injEq, true_and, and_true]
        omega
    next hmonth =>
      obtain rfl : month = 1 := by omega
      have hyear : year ≠ -9999 := by
        rintro rfl
        exact hfirst rfl
      constructor
      · simp only [Valid, daysIn]
        omega
      · simp [next, daysIn]

end Civil

namespace Date

variable {d d' m s : Date} {n : Nat}

theorem ofIndex?_eq_some_iff : ofIndex? n = some m ↔ m.index = n := by
  refine ⟨index_of_ofIndex?, ?_⟩
  rintro rfl
  exact m.ofIndex?_index

theorem tomorrow?_eq_some_iff : d.tomorrow? = some m ↔ m.index = d.index + 1 := by
  rw [tomorrow?_eq, ofIndex?_eq_some_iff]

theorem index_of_civil {c : Civil} (h : d.civil = c) : d.index = c.index := by
  rw [← index_civil d, h]

theorem index_of_first (h : d.civil = Civil.first) : d.index = 0 :=
  (index_of_civil h).trans (by decide)

def yesterday? (d : Date) : Option Date :=
  d.civil.previous.date?

/-- In the civil calendar the day before is the one with the index before, and the first
supported day has none. -/
theorem yesterday?_eq_some_iff : d.yesterday? = some m ↔ m.index + 1 = d.index := by
  by_cases hfirst : d.civil = Civil.first
  · have hnone : d.yesterday? = none := by
      rw [yesterday?, hfirst]
      rfl
    rw [hnone, index_of_first hfirst]
    simp
  · obtain ⟨hvalid, hnext⟩ := Civil.next_previous d.valid_civil hfirst
    have hback := Civil.index_next hvalid
    rw [hnext, index_civil] at hback
    rw [yesterday?, Civil.date?, if_pos hvalid, ofIndex?_eq_some_iff]
    omega

/-! ## Some days before or after -/

/-- The date so many days before a date, day by day. -/
def before? (d : Date) : Nat → Option Date
  | 0 => some d
  | n + 1 => (d.before? n).bind yesterday?

def after? (d : Date) : Nat → Option Date
  | 0 => some d
  | n + 1 => (d.after? n).bind tomorrow?

theorem before?_eq_some_iff : d.before? n = some m ↔ m.index + n = d.index := by
  induction n generalizing m with
  | zero =>
      rw [before?, Option.some.injEq, Date.ext_iff]
      exact eq_comm
  | succ n ih =>
      simp only [before?, Option.bind_eq_some_iff, ih, yesterday?_eq_some_iff]
      constructor
      · rintro ⟨a, hn, hm⟩
        omega
      · intro h
        have hd := d.isLt
        exact ⟨⟨m.index + 1, by omega⟩, by simp only; omega, rfl⟩

theorem after?_eq_some_iff : d.after? n = some m ↔ m.index = d.index + n := by
  induction n generalizing m with
  | zero =>
      rw [after?, Option.some.injEq, Date.ext_iff]
      exact eq_comm
  | succ n ih =>
      simp only [after?, Option.bind_eq_some_iff, ih, tomorrow?_eq_some_iff]
      constructor
      · rintro ⟨a, hn, hm⟩
        omega
      · intro h
        have hm := m.isLt
        exact ⟨⟨d.index + n, by omega⟩, rfl, by simp only; omega⟩

/-! ## Weekdays from day to day -/

/-- Weekdays as the calendar has them: 1 January 1970 is a Thursday, and weekdays follow
each other from day to day. -/
structure WeekdaysOfCalendar (weekday : Date → Weekday) : Prop where
  epoch : ∀ d, d.civil = ⟨1970, 1, 1⟩ → weekday d = .thursday
  tomorrow : ∀ d d', d.tomorrow? = some d' → weekday d' = (weekday d).next

/-- Weekdays are counted from that of the first supported day. -/
theorem WeekdaysOfCalendar.eq_ofIndex {f : Date → Weekday} (h : WeekdaysOfCalendar f) (d : Date) :
    f d = .ofIndex ((f ⟨0, by decide⟩).index + d.index) := by
  obtain ⟨n, hn⟩ := d
  induction n with
  | zero => exact (Weekday.ofIndex_eq_iff.mpr (Nat.mod_eq_of_lt (Weekday.index_lt _))).symm
  | succ n ih =>
      have hbefore : n < dayCount := Nat.lt_of_succ_lt hn
      have hstep := h.tomorrow ⟨n, hbefore⟩ ⟨n + 1, hn⟩ (tomorrow?_eq_some_iff.mpr rfl)
      rw [hstep, ih hbefore, ← Weekday.ofIndex_succ, Nat.add_assoc]

/-- There are no other weekdays of the calendar than those of the library. -/
theorem weekdaysOfCalendar_iff {f : Date → Weekday} : WeekdaysOfCalendar f ↔ f = weekday := by
  constructor
  · intro h
    -- the known Thursday is a number of days after the first day that leaves it a Monday
    have hepoch := h.epoch ⟨4371587, by decide⟩ (by decide)
    have hcount : ((f ⟨0, by decide⟩).index + 4371587) % 7 = 3 :=
      Weekday.ofIndex_eq_iff.mp ((h.eq_ofIndex _).symm.trans hepoch)
    have hmonday : (f ⟨0, by decide⟩).index = 0 := by
      have hlt := (f ⟨0, by decide⟩).index_lt
      omega
    funext d
    rw [h.eq_ofIndex, hmonday, Nat.zero_add]
    rfl
  · rintro rfl
    constructor
    · intro d hd
      rw [weekday, index_of_civil hd]
      rfl
    · intro d d' htomorrow
      rw [weekday, weekday, tomorrow?_eq_some_iff.mp htomorrow, Weekday.ofIndex_succ]

/-! ## The week of a date -/

/-- The Monday and the Sunday of a week, with a date between them. -/
structure IsWeekOf (d m s : Date) : Prop where
  monday : m.weekday = .monday
  sunday : s.weekday = .sunday
  days : m.after? 6 = some s
  monday_le : m ≤ d
  le_sunday : d ≤ s

/-- Two dates between a Monday and the Sunday after it, whether or not that is a supported
day. -/
def SameWeek (d d' : Date) : Prop :=
  ∃ m : Date, m.weekday = .monday ∧ (∃ n ≤ 6, m.after? n = some d) ∧ ∃ n ≤ 6, m.after? n = some d'

/-- The bounds of a week by going back and forth day by day. -/
def weekBoundsByDays (d : Date) : Except RuleError (Date × Date) :=
  match d.before? d.weekday.index with
  | none => .error (.dateOverflow "finding the start of the week")
  | some m =>
      match m.after? 6 with
      | none => .error (.dateOverflow "finding the end of the week")
      | some s => .ok (m, s)

theorem weekday_eq_iff {w : Weekday} : d.weekday = w ↔ d.index % 7 = w.index :=
  Weekday.ofIndex_eq_iff

theorem weekday_eq_monday_iff : d.weekday = .monday ↔ d.index % 7 = 0 :=
  weekday_eq_iff

theorem weekday_eq_sunday_iff : d.weekday = .sunday ↔ d.index % 7 = 6 :=
  weekday_eq_iff

theorem weekday_of_first (h : d.civil = Civil.first) : d.weekday = .monday := by
  rw [weekday_eq_monday_iff, index_of_first h]

theorem index_monday (d : Date) : d.monday.index = d.index - d.index % 7 := rfl

theorem before_weekday (d : Date) : d.before? d.weekday.index = some d.monday := by
  have hweekday := weekday_eq_iff.mp (rfl : d.weekday = d.weekday)
  rw [before?_eq_some_iff, ← hweekday]
  exact Nat.sub_add_cancel (Nat.mod_le _ _)

theorem weekBoundsByDays_eq (d : Date) : d.weekBoundsByDays = d.weekBounds := by
  have hafter : d.monday.after? 6 = ofIndex? (d.monday.index + 6) := by
    refine Option.ext ?_
    intro s
    rw [after?_eq_some_iff, ofIndex?_eq_some_iff]
  rw [weekBoundsByDays, before_weekday, weekBounds]
  simp only [hafter]
  cases ofIndex? (d.monday.index + 6) <;> rfl

theorem isWeekOf_iff : d.IsWeekOf m s ↔ m = d.monday ∧ s.index = m.index + 6 := by
  have hindex := index_monday d
  constructor
  · rintro ⟨hmonday, -, hdays, hlow, hhigh⟩
    rw [weekday_eq_monday_iff] at hmonday
    rw [after?_eq_some_iff] at hdays
    rw [le_iff] at hlow hhigh
    exact ⟨Date.ext (by omega), hdays⟩
  · rintro ⟨rfl, hs⟩
    refine ⟨?_, ?_, after?_eq_some_iff.mpr hs, ?_, ?_⟩
    · rw [weekday_eq_monday_iff]
      omega
    · rw [weekday_eq_sunday_iff]
      omega
    · rw [le_iff]
      omega
    · rw [le_iff]
      omega

theorem weekBounds_eq_ok_iff : d.weekBounds = .ok (m, s) ↔ d.IsWeekOf m s := by
  rw [isWeekOf_iff, ← ofIndex?_eq_some_iff, weekBounds]
  constructor
  · intro h
    split at h
    next hsunday =>
      cases h
      exact ⟨rfl, hsunday⟩
    · cases h
  · rintro ⟨rfl, hsunday⟩
    rw [hsunday]

theorem sameWeek_iff : d.SameWeek d' ↔ d.monday = d'.monday := by
  have hindex := index_monday d
  have hindex' := index_monday d'
  constructor
  · rintro ⟨m, hm, ⟨n, hn, hd⟩, n', hn', hd'⟩
    rw [weekday_eq_monday_iff] at hm
    rw [after?_eq_some_iff] at hd hd'
    exact Date.ext (by omega)
  · intro h
    have hsame : d.monday.index = d'.monday.index := congrArg index h
    refine ⟨d.monday, ?_, ⟨d.index % 7, by omega, ?_⟩, d'.index % 7, by omega, ?_⟩
    · rw [weekday_eq_monday_iff]
      omega
    · rw [after?_eq_some_iff]
      omega
    · rw [after?_eq_some_iff]
      omega

/-! ## The last week -/

/-- After 26 December 9999, the last Sunday. -/
def AfterLastSunday (d : Date) : Prop :=
  Civil.Before ⟨9999, 12, 26⟩ d.civil

theorem afterLastSunday_iff : d.AfterLastSunday ↔ 7304478 < d.index := by
  have hlast : Date.civil ⟨7304478, by decide⟩ = ⟨9999, 12, 26⟩ := by decide
  rw [AfterLastSunday, ← hlast, ← lt_iff_before, lt_iff]

theorem afterLastSunday_iff_civil :
    d.AfterLastSunday ↔ d.civil.year = 9999 ∧ d.civil.month = 12 ∧ 27 ≤ d.civil.day := by
  obtain ⟨⟨-, hyear⟩, ⟨-, hmonth⟩, -⟩ := d.valid_civil
  simp only [AfterLastSunday, Civil.Before]
  omega

theorem weekBounds_eq_error_iff {error : RuleError} : d.weekBounds = .error error ↔
    d.AfterLastSunday ∧ error = .dateOverflow "finding the end of the week" := by
  have hindex := index_monday d
  have hd := d.isLt
  rw [afterLastSunday_iff, weekBounds]
  rw [dayCount] at hd
  split
  next s hsunday =>
    have hs := s.isLt
    rw [index_of_ofIndex? hsunday, dayCount] at hs
    constructor
    · rintro ⟨⟩
    · rintro ⟨hlate, -⟩
      omega
  next hnone =>
    rw [ofIndex?] at hnone
    split at hnone
    · cases hnone
    next hover =>
      rw [dayCount] at hover
      constructor
      · rintro ⟨⟩
        exact ⟨by omega, rfl⟩
      · rintro ⟨-, rfl⟩
        rfl

theorem exists_weekBounds_iff : (∃ b, d.weekBounds = .ok b) ↔ ¬ d.AfterLastSunday := by
  simp only [Answer.exists_eq_ok_iff, ne_eq, weekBounds_eq_error_iff]
  constructor
  · intro h hlate
    exact h _ ⟨hlate, rfl⟩
  · rintro h error ⟨hlate, -⟩
    exact h hlate

/-- Dates have the same bounds exactly when they are in one week; the last week, which is
cut off, counts as one. -/
theorem weekBounds_eq_iff : d.weekBounds = d'.weekBounds ↔ d.SameWeek d' := by
  rw [sameWeek_iff]
  constructor
  · intro h
    cases hd : d.weekBounds with
    | ok b =>
        obtain ⟨hm, -⟩ := isWeekOf_iff.mp (weekBounds_eq_ok_iff.mp hd)
        obtain ⟨hm', -⟩ := isWeekOf_iff.mp (weekBounds_eq_ok_iff.mp (h.symm.trans hd))
        exact hm.symm.trans hm'
    | error error =>
        have hlate := (weekBounds_eq_error_iff.mp hd).1
        have hlate' := (weekBounds_eq_error_iff.mp (h.symm.trans hd)).1
        rw [afterLastSunday_iff] at hlate hlate'
        have hlt := d.isLt
        have hlt' := d'.isLt
        rw [dayCount] at hlt hlt'
        refine Date.ext ?_
        rw [index_monday, index_monday]
        omega
  · intro h
    rw [weekBounds, weekBounds, h]

end Date

end WorkingTime
