/-
The hours of a week.

The week of a date is asked for as a range of seven dates, so its hours are the sum of the
hours of these, for each of them the same (`weekSumsUp`).  The question fails for a
calendar that is there only when the week is cut off by the end of the supported dates
(`weekHours_overflows_iff`).
-/
import WorkingTime.Proofs.Date.Week
import WorkingTime.Proofs.Registry.Sums

namespace WorkingTime

theorem Date.forall₂_upTo {m s : Date} {n : Nat} (h : m.after? n = some s) :
    List.Forall₂ (fun i d => m.after? i = some d) (List.range (n + 1)) (upTo m s) := by
  induction n generalizing s with
  | zero =>
      obtain rfl : m = s := Option.some.inj h
      rw [upTo_self]
      exact .cons rfl .nil
  | succ n ih =>
      obtain ⟨d, hd, hs⟩ := Option.bind_eq_some_iff.mp h
      have hindex := after?_eq_some_iff.mp hd
      have hnext := tomorrow?_eq_some_iff.mp hs
      have hle : m ≤ d := by
        rw [le_iff]
        omega
      have hlt : d < s := by
        rw [lt_iff]
        omega
      rw [List.range_succ, upTo_append hle hlt hnext, upTo_self]
      exact List.rel_append (ih hd) (.cons h .nil)

namespace Registry

variable {r : Registry} {id : CalendarId} {d d' m s : Date}

/-- The hours of a week, by going to its Monday and its Sunday day by day and adding up the
hours of one date after the other. -/
def weekHoursWalk (r : Registry) (id : CalendarId) (d : Date) : Part (Except SumFault Nat) :=
  match d.weekBoundsByDays with
  | .error fault => .some (.error (.refused (.rule fault)))
  | .ok (m, s) => r.workableHoursWalk id m s

/-- The hours of the week of a date are the sum of the hours of its Monday and of the six
dates after it. -/
def WeekSumsUp (r : Registry) (id : CalendarId) (d m : Date) : Prop :=
  ∃ (dates : List Date) (hours : List Nat),
    List.Forall₂ (fun n e => m.after? n = some e) (List.range 7) dates ∧
    List.Forall₂ (fun e n => r.capacityAt id e = .ok n) dates hours ∧
    r.weekHours id d = .ok hours.sum ∧ r.weekHoursWalk id d = .some (.ok hours.sum)

theorem weekHours_of_isWeekOf (h : d.IsWeekOf m s) :
    r.weekHours id d = r.workableHours id m s := by
  rw [weekHours, Date.weekBounds_eq_ok_iff.mpr h]
  rfl

theorem weekHoursWalk_of_isWeekOf (h : d.IsWeekOf m s) :
    r.weekHoursWalk id d = r.workableHoursWalk id m s := by
  rw [weekHoursWalk, Date.weekBoundsByDays_eq, Date.weekBounds_eq_ok_iff.mpr h]

theorem capacityAt_of_mem (h : r.WellFormed) {c : Calendar} (hc : c ∈ r.calendars.rows)
    (d : Date) : r.capacityAt c.id d = .ok (r.decisionOn c.id d).hours := by
  rw [capacityAt, resolve_eq_decisionOn h hc d]
  rfl

theorem weekSumsUp (h : r.WellFormed) {c : Calendar} (hc : c ∈ r.calendars.rows)
    (hweek : d.IsWeekOf m s) : r.WeekSumsUp c.id d m := by
  have hhours := capacityAt_of_mem h hc
  have hms : m ≤ s := Nat.le_trans hweek.monday_le hweek.le_sunday
  refine ⟨Date.upTo m s, _, Date.forall₂_upTo hweek.days,
    Answer.mapM_eq_ok_iff.mp (mapM_capacityAt hhours _), ?_, ?_⟩
  · rw [weekHours_of_isWeekOf hweek, workableHours_eq hhours hms]
  · have hlt := Date.sum_hours_lt (fun d => (r.decisionOn c.id d).hours_lt) m s
    rw [weekHoursWalk_of_isWeekOf hweek, workableHoursWalk_eq h hms, foldlM_addHours hhours hlt]

theorem weekHours_of_sameWeek (h : d.SameWeek d') : r.weekHours id d = r.weekHours id d' := by
  rw [weekHours, weekHours, Date.weekBounds_eq_iff.mpr h]

theorem weekHours_overflows_iff (h : r.WellFormed) {operation : String} :
    r.weekHours id d = .error (.rule (.dateOverflow operation)) ↔
      d.AfterLastSunday ∧ operation = "finding the end of the week" := by
  constructor
  · intro hoverflow
    cases hbounds : d.weekBounds with
    | ok b =>
        obtain ⟨m, s⟩ := b
        have hweek := Date.weekBounds_eq_ok_iff.mp hbounds
        by_cases hmissing : ∀ c ∈ r.calendars.rows, c.id ≠ id
        · have hms : m ≤ s := Nat.le_trans hweek.monday_le hweek.le_sunday
          rw [weekHours_of_isWeekOf hweek,
            (rangeFails_of_missing h hmissing hms).workableHours] at hoverflow
          cases hoverflow
        · push Not at hmissing
          obtain ⟨c, hc, rfl⟩ := hmissing
          obtain ⟨_, _, -, -, hsum, -⟩ := weekSumsUp h hc hweek
          rw [hsum] at hoverflow
          cases hoverflow
    | error error =>
        obtain ⟨hlate, rfl⟩ := Date.weekBounds_eq_error_iff.mp hbounds
        rw [weekHours, hbounds] at hoverflow
        cases hoverflow
        exact ⟨hlate, rfl⟩
  · rintro ⟨hlate, rfl⟩
    rw [weekHours, Date.weekBounds_eq_error_iff.mpr ⟨hlate, rfl⟩]
    rfl

/-- The bounds of a week are right up to both ends of the supported dates: they are the
Monday and the Sunday around the date whenever there are such days, they are not there for
the last five days alone, and dates have the same bounds exactly when they are in one week.
Going back to the Monday never leaves the supported dates, since the first of them is a
Monday.  So the hours of a week are the same for all its dates and are the sum of the hours
of its seven dates, and the question overflows for the last five days alone. -/
theorem weeks_right_to_the_edges (h : r.Reachable) :
    Date.WeekdaysOfCalendar Date.weekday ∧
    (∀ d : Date, d.civil = Civil.first → d.weekday = .monday) ∧
    (∀ d : Date, d.weekBoundsByDays = d.weekBounds ∧
      ∃ m, d.before? d.weekday.index = some m) ∧
    (∀ d : Date, (∃ b, d.weekBounds = .ok b) ↔ ¬ Civil.Before ⟨9999, 12, 26⟩ d.civil) ∧
    (∀ d m s : Date, d.weekBounds = .ok (m, s) ↔ d.IsWeekOf m s) ∧
    (∀ d d' : Date, d.weekBounds = d'.weekBounds ↔ d.SameWeek d') ∧
    (∀ id (d d' : Date), d.SameWeek d' → r.weekHours id d = r.weekHours id d') ∧
    (∀ c ∈ r.calendars.rows, ∀ d m s : Date, d.IsWeekOf m s → r.WeekSumsUp c.id d m) ∧
    (∀ id (d : Date) operation, r.weekHours id d = .error (.rule (.dateOverflow operation)) ↔
      (d.civil.year = 9999 ∧ d.civil.month = 12 ∧ 27 ≤ d.civil.day) ∧
        operation = "finding the end of the week") := by
  have hwf := h.wellFormed
  refine ⟨Date.weekdaysOfCalendar_iff.mpr rfl, fun d => Date.weekday_of_first,
    fun d => ⟨d.weekBoundsByDays_eq, _, d.before_weekday⟩, fun d => Date.exists_weekBounds_iff,
    fun d m s => Date.weekBounds_eq_ok_iff, fun d d' => Date.weekBounds_eq_iff,
    fun id d d' => weekHours_of_sameWeek, fun c hc d m s => weekSumsUp hwf hc, ?_⟩
  intro id d operation
  rw [weekHours_overflows_iff hwf, Date.afterLastSunday_iff_civil]

/-- The last supported Sunday, 26 December 9999. -/
abbrev lastSunday : Date := ⟨7304478, by decide⟩

/-- The last whole week has a Monday of eight hours for "Summer"; the week after it is cut
off. -/
theorem weeks_right_to_the_edges_derived :
    (empty.after derivedHistory).weekHoursWalk summerId lastSunday = .some (.ok 8) ∧
      (empty.after derivedHistory).weekHours summerId lastDay =
        .error (.rule (.dateOverflow "finding the end of the week")) := by
  have hreach : (empty.after derivedHistory).Reachable := Reachable.empty.after derivedHistory
  obtain ⟨c, hc, hid⟩ : ∃ c ∈ (empty.after derivedHistory).calendars.rows, c.id = summerId := by
    decide +kernel
  have height : (empty.after derivedHistory).weekHours summerId lastSunday = .ok 8 := by
    decide +kernel
  obtain ⟨-, -, -, -, hbounds, -, -, hsums, hoverflow⟩ := weeks_right_to_the_edges hreach
  have hweek : lastSunday.IsWeekOf ⟨7304472, by decide⟩ lastSunday :=
    (hbounds _ _ _).mp (by decide)
  obtain ⟨_, hours, -, -, hsum, hwalk⟩ := hsums c hc _ _ _ hweek
  rw [hid] at hsum hwalk
  have htotal : hours.sum = 8 := Except.ok.inj (hsum.symm.trans height)
  exact ⟨htotal ▸ hwalk, (hoverflow summerId lastDay _).mpr ⟨by decide, rfl⟩⟩

end Registry

end WorkingTime
