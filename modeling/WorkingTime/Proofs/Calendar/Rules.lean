/-
Edits of the rules in force, in full.

Each of these edits comes out well under a condition, and then it writes one thing
into the current version: an exception that is new, gone or replaced, or the rule of
one weekday (`addException_eq_ok_iff` and its likes).  What is looked up afterwards
follows, by date or weekday; and the version that is written to is the one in effect
on the dates from its start on, and on no other (`versionAt_withCurrent`).
-/
import WorkingTime.Proofs.Calendar.Edit
import WorkingTime.Proofs.Table

namespace WorkingTime

/-! ## Looking up what was written -/

theorem WeekTable.get_set (t : WeekTable) (w w' : Weekday) (rule : DayRule) :
    (t.set w rule).get w' = if w' = w then rule else t.get w' := by
  cases w <;> cases w' <;> rfl

/-! ## Entered hours -/

theorem Hours.check_eq_ok_iff {entered : Int} {hours : Hours} :
    Hours.check entered = .ok hours ↔ (hours.value : Int) = entered := by
  have hlt := hours.isLt
  rw [check]
  split
  next hneg =>
    simp only [reduceCtorEq, false_iff]
    omega
  next hnonneg =>
    obtain ⟨n, rfl⟩ := Int.eq_ofNat_of_zero_le (Int.not_lt.mp hnonneg)
    rw [Int.toNat_natCast, ofNat?]
    split
    next n' hn =>
      split at hn
      · cases hn
        obtain ⟨value, hvalue⟩ := hours
        simp only [Except.ok.injEq, Hours.mk.injEq]
        omega
      · cases hn
    next hn =>
      split at hn
      · cases hn
      next hbig =>
        simp only [reduceCtorEq, false_iff]
        omega

namespace Calendar

variable {c c' : Calendar} {d : Date}

/-! ## The edits -/

theorem addException_eq_ok_iff {e : ExceptionDay} :
    c.addException e = .ok c' ↔
      (∀ s ∈ c.current.validFrom, s ≤ e.date) ∧ c.current.exceptionOn? e.date = none ∧
        c' = { c with
          current := { c.current with exceptions := c.current.exceptions.insert e } } := by
  have hstart : c.current.validFrom.filter (e.date < ·) = none ↔
      ∀ s ∈ c.current.validFrom, s ≤ e.date := by
    simp only [Option.filter_eq_none_iff, decide_eq_true_eq, Date.not_lt]
    rfl
  simp only [addException, Version.addException, Answer.bind_eq_ok_iff, Answer.pure_eq_ok_iff,
    ← hstart]
  cases c.current.validFrom.filter (e.date < ·) with
  | some start => simp
  | none =>
      cases c.current.exceptionOn? e.date with
      | some own => simp
      | none => simp [eq_comm]

theorem removeException_eq_ok_iff {e : ExceptionDay} :
    c.removeException d = .ok (e, c') ↔
      c.current.exceptionOn? d = some e ∧
        c' = { c with
          current := { c.current with exceptions := c.current.exceptions.erase d.index } } := by
  simp only [removeException, Version.removeException, Answer.bind_eq_ok_iff,
    Answer.pure_eq_ok_iff]
  cases c.current.exceptionOn? d with
  | none => simp
  | some own => simp [eq_comm]

theorem updateException_eq_ok_iff {entered : Int} {category : Category} :
    c.updateException d entered category = .ok c' ↔
      ∃ hours : Hours, (hours.value : Int) = entered ∧ (c.current.exceptionOn? d).isSome = true ∧
        c' = { c with
          current := { c.current with
            exceptions := c.current.exceptions.insert ⟨d, hours, category⟩ } } := by
  simp only [updateException, Version.updateException, ExceptionDay.enter,
    Answer.bind_eq_ok_iff, Answer.map_eq_ok_iff, Answer.require_eq_ok_iff, Answer.pure_eq_ok_iff,
    Hours.check_eq_ok_iff]
  constructor
  · rintro ⟨_, ⟨_, ⟨hours, hentered, rfl⟩, hsome, rfl⟩, rfl⟩
    exact ⟨hours, hentered, hsome, rfl⟩
  · rintro ⟨hours, hentered, hsome, rfl⟩
    exact ⟨_, ⟨_, ⟨hours, hentered, rfl⟩, hsome, rfl⟩, rfl⟩

theorem setHours_eq_ok_iff {w : Weekday} {entered : Option Int} :
    c.setHours w entered = .ok c' ↔
      ∃ rule, DayRule.enter entered = .ok rule ∧
        c' = { c with current := c.current.setRule w rule } := by
  simp only [setHours, Answer.bind_eq_ok_iff, Answer.pure_eq_ok_iff, eq_comm (a := c')]

/-! ## The version that is written to -/

theorem expires_of_mem_superseded (h : Version.DivideTime c.versions) {v : Version}
    (hv : v ∈ c.superseded) : v.expires ≠ none := by
  obtain ⟨bs, -, hends, -⟩ := h
  have hsuperseded : c.superseded.map (·.expires) = bs.map some := by
    have := congrArg List.dropLast hends
    simpa [versions] using this
  obtain ⟨b, -, hb⟩ := List.mem_map.mp (hsuperseded ▸ List.mem_map_of_mem hv)
  rw [← hb]
  exact Option.some_ne_none b

theorem find?_outlasts_of_le (h : Version.DivideTime c.versions)
    (hd : ∀ s ∈ c.current.validFrom, s ≤ d) : c.superseded.find? (·.outlasts d) = none := by
  have hcurrent : c.current.contains d = true := by
    refine Version.contains_iff.mpr ⟨hd, ?_⟩
    simp [Version.outlasts_iff, current_expires h]
  have hversion := versionAt_eq_current h hcurrent
  rw [versionAt] at hversion
  cases hfind : c.superseded.find? (·.outlasts d) with
  | none => rfl
  | some v =>
      rw [hfind, Option.getD_some] at hversion
      have hexpires := expires_of_mem_superseded h (List.mem_of_find?_eq_some hfind)
      exact absurd (hversion ▸ current_expires h) hexpires

/-- With another current version, a calendar has this one in effect from its start
on, and before that the versions that it had. -/
theorem versionAt_withCurrent (h : Version.DivideTime c.versions) (v : Version) (d : Date) :
    ((∀ s ∈ c.current.validFrom, s ≤ d) → { c with current := v }.versionAt d = v) ∧
      ((∃ s ∈ c.current.validFrom, d < s) →
        { c with current := v }.versionAt d = c.versionAt d) := by
  constructor
  · intro hd
    show (c.superseded.find? (·.outlasts d)).getD v = v
    rw [find?_outlasts_of_le h hd, Option.getD_none]
  · rintro ⟨s, hs, hd⟩
    show (c.superseded.find? (·.outlasts d)).getD v = c.versionAt d
    rw [find?_outlasts_of_lt h hs hd, Option.getD_some]

end Calendar

end WorkingTime
