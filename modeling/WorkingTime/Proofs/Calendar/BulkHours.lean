/-
Entering the hours of several weekdays at once.

All entries are checked before any is written, and entering them in turn checks each
just before it writes it.  Both come to the same when every entry is accepted, also for
a weekday that is entered more than once, and fail for the same cause when one is not
(`setHoursPerDay_eq_inTurn`).  What a failure leaves behind differs: nothing, or the
entries before the one that is refused (`run_enterInTurn_of_stopsAt`).
-/
import WorkingTime.Proofs.Calendar.Rules
import WorkingTime.Proofs.Registry.InPlace

namespace WorkingTime

/-! ## One entry -/

theorem Hours.check_eq_error_iff {entered : Int} {cause : RuleError} :
    Hours.check entered = .error cause ↔
      entered < 0 ∧ cause = .negativeHours entered ∨
        UInt32.size ≤ entered ∧ cause = .hoursOutOfRange entered := by
  rw [check]
  split
  next hneg =>
    have hsmall : ¬ (UInt32.size : Int) ≤ entered := by omega
    simp only [Except.error.injEq, hneg, hsmall, true_and, false_and, or_false, eq_comm]
  next hnonneg =>
    obtain ⟨n, rfl⟩ := Int.eq_ofNat_of_zero_le (Int.not_lt.mp hnonneg)
    rw [Int.toNat_natCast, ofNat?]
    by_cases hn : n < UInt32.size
    · have hfits : ¬ (UInt32.size : Int) ≤ n := by omega
      simp only [dif_pos hn, reduceCtorEq, hnonneg, hfits, false_and, or_self]
    · have hbig : (UInt32.size : Int) ≤ n := by omega
      simp only [dif_neg hn, Except.error.injEq, hnonneg, hbig, false_and, true_and, false_or,
        eq_comm]

theorem DayRule.enter_eq_error_iff {entered : Option Int} {cause : RuleError} :
    DayRule.enter entered = .error cause ↔ ∃ n, entered = some n ∧
      (n < 0 ∧ cause = .negativeHours n ∨ UInt32.size ≤ n ∧ cause = .hoursOutOfRange n) := by
  cases entered with
  | none => simp [enter]
  | some n =>
      have hmap : enter (some n) = .error cause ↔ Hours.check n = .error cause := by
        rw [enter]
        cases Hours.check n <;> simp [Functor.map, Except.map]
      rw [hmap, Hours.check_eq_error_iff]
      simp

theorem DayRule.exists_enter_eq_ok_iff {entered : Option Int} :
    (∃ rule, DayRule.enter entered = .ok rule) ↔ ∀ n ∈ entered, 0 ≤ n ∧ n < UInt32.size := by
  simp only [Answer.exists_eq_ok_iff, ne_eq, enter_eq_error_iff]
  constructor
  · intro h n hn
    by_contra hout
    by_cases hneg : n < 0
    · exact h _ ⟨n, hn, .inl ⟨hneg, rfl⟩⟩
    · exact h _ ⟨n, hn, .inr ⟨by omega, rfl⟩⟩
  · rintro h cause ⟨n, hn, ⟨hneg, -⟩ | ⟨hbig, -⟩⟩
    · have := h n hn
      omega
    · have := h n hn
      omega

namespace Calendar

variable {c c' : Calendar} {hours before after : List (Weekday × Option Int)}

/-! ## All entries, at once and in turn -/

/-- The calendar after entering hours one after the other. -/
def setHoursInTurn (c : Calendar) (hours : List (Weekday × Option Int)) :
    Except RuleError Calendar :=
  hours.foldlM (fun c x => c.setHours x.1 x.2) c

/-- The first entry may as well be written before the others are checked. -/
theorem setHoursPerDay_cons (c : Calendar) (w : Weekday) (entered : Option Int)
    (rest : List (Weekday × Option Int)) :
    c.setHoursPerDay ((w, entered) :: rest) =
      (c.setHours w entered >>= fun c => c.setHoursPerDay rest) := by
  simp only [setHoursPerDay, setHours, List.mapM_cons, bind_assoc, pure_bind]
  rfl

theorem setHoursPerDay_eq_inTurn (c : Calendar) (hours : List (Weekday × Option Int)) :
    c.setHoursPerDay hours = c.setHoursInTurn hours := by
  induction hours generalizing c with
  | nil => rfl
  | cons x rest ih =>
      obtain ⟨w, entered⟩ := x
      rw [setHoursPerDay_cons, setHoursInTurn, List.foldlM_cons]
      exact bind_congr ih

/-! ## Entries that are all accepted -/

/-- What entering hours makes of a calendar. -/
structure HoursEntered (c : Calendar) (hours : List (Weekday × Option Int)) (c' : Calendar) :
    Prop where
  /-- Of the entries for one weekday, the last one holds. -/
  last : ∀ before w entered after, hours = before ++ (w, entered) :: after →
    (∀ x ∈ after, x.1 ≠ w) → DayRule.enter entered = .ok (c'.current.week.get w)
  /-- A weekday without an entry keeps its rule. -/
  others : ∀ w, (∀ x ∈ hours, x.1 ≠ w) → c'.current.week.get w = c.current.week.get w
  rest : c' = { c with current := { c.current with week := c'.current.week } }

theorem hoursEntered_nil (c : Calendar) : c.HoursEntered [] c := by
  refine ⟨?_, fun _ _ => rfl, rfl⟩
  intro before w entered after hsplit
  simp at hsplit

theorem HoursEntered.cons {w : Weekday} {entered : Option Int} {rule : DayRule}
    (hrule : DayRule.enter entered = .ok rule)
    (h : HoursEntered { c with current := c.current.setRule w rule } hours c') :
    c.HoursEntered ((w, entered) :: hours) c' := by
  have hkept : ∀ w', (∀ x ∈ hours, x.1 ≠ w') →
      c'.current.week.get w' = if w' = w then rule else c.current.week.get w' := by
    intro w' hw'
    rw [h.others w' hw', ← WeekTable.get_set]
    rfl
  refine ⟨?_, ?_, h.rest⟩
  · intro before w' entered' after hsplit hafter
    cases before with
    | nil =>
        obtain ⟨⟨rfl, rfl⟩, rfl⟩ := List.cons.inj hsplit
        rw [hkept _ hafter, if_pos rfl]
        exact hrule
    | cons x before =>
        obtain ⟨-, rfl⟩ := List.cons.inj hsplit
        exact h.last before w' entered' after rfl hafter
  · intro w' hw'
    obtain ⟨hne, hrest⟩ := List.forall_mem_cons.mp hw'
    rw [hkept w' hrest, if_neg (Ne.symm hne)]

theorem hoursEntered_of_ok (h : c.setHoursInTurn hours = .ok c') : c.HoursEntered hours c' := by
  induction hours generalizing c with
  | nil =>
      cases h
      exact hoursEntered_nil c'
  | cons x rest ih =>
      obtain ⟨w, entered⟩ := x
      rw [setHoursInTurn, List.foldlM_cons, Answer.bind_eq_ok_iff] at h
      obtain ⟨c₁, hfirst, hrest⟩ := h
      obtain ⟨rule, hrule, rfl⟩ := setHours_eq_ok_iff.mp hfirst
      exact (ih hrest).cons hrule

theorem exists_setHoursInTurn_eq_ok_iff :
    (∃ c', c.setHoursInTurn hours = .ok c') ↔
      ∀ x ∈ hours, ∀ n ∈ x.2, 0 ≤ n ∧ n < UInt32.size := by
  induction hours generalizing c with
  | nil => simp [setHoursInTurn, pure, Except.pure]
  | cons x rest ih =>
      obtain ⟨w, entered⟩ := x
      rw [List.forall_mem_cons, ← DayRule.exists_enter_eq_ok_iff]
      simp only [setHoursInTurn, List.foldlM_cons, Answer.bind_eq_ok_iff, setHours_eq_ok_iff]
      constructor
      · rintro ⟨c', c₁, ⟨rule, hrule, -⟩, hrest⟩
        exact ⟨⟨rule, hrule⟩, ih.mp ⟨c', hrest⟩⟩
      · rintro ⟨⟨rule, hrule⟩, hrest⟩
        obtain ⟨c', hc'⟩ := ih.mpr hrest
        exact ⟨c', _, ⟨rule, hrule, rfl⟩, hc'⟩

/-! ## An entry that is refused -/

/-- Entering hours in turn stops at a number that is refused, when the entries before it
have made another calendar. -/
structure StopsAt (c : Calendar) (hours before : List (Weekday × Option Int)) (n : Int)
    (c' : Calendar) (cause : RuleError) : Prop where
  split : ∃ w after, hours = before ++ (w, some n) :: after
  written : c.setHoursInTurn before = .ok c'
  refused : n < 0 ∧ cause = .negativeHours n ∨ UInt32.size ≤ n ∧ cause = .hoursOutOfRange n

theorem exists_stopsAt {cause : RuleError} (h : c.setHoursInTurn hours = .error cause) :
    ∃ before n c', c.StopsAt hours before n c' cause := by
  obtain ⟨before, ⟨w, entered⟩, after, c', hsplit, hwritten, hlast⟩ :=
    Answer.exists_of_foldlM_eq_error h
  have hrule : DayRule.enter entered = .error cause := by
    simp only [setHours] at hlast
    cases hrule : DayRule.enter entered with
    | ok rule =>
        rw [hrule] at hlast
        cases hlast
    | error cause' =>
        rw [hrule] at hlast
        rw [Except.error.inj hlast]
  obtain ⟨n, rfl, hrefused⟩ := DayRule.enter_eq_error_iff.mp hrule
  exact ⟨before, n, c', ⟨w, after, hsplit⟩, hwritten, hrefused⟩

/-! ## What is written -/

/-- The program that enters hours one after the other. -/
def enterInTurn (hours : List (Weekday × Option Int)) : EStateM RuleError Calendar Unit :=
  hours.forM fun x => (Edit.setHours x.1 x.2).program

theorem run_setHours_of_ok {w : Weekday} {entered : Option Int}
    (h : c.setHours w entered = .ok c') :
    (Edit.setHours w entered).program.run c = .ok () c' := by
  rw [Edit.run_program, Edit.run, h]
  rfl

theorem run_enterInTurn_append (h : c.setHoursInTurn before = .ok c')
    (after : List (Weekday × Option Int)) :
    (enterInTurn (before ++ after)).run c = (enterInTurn after).run c' := by
  induction before generalizing c with
  | nil =>
      cases h
      rfl
  | cons x before ih =>
      rw [setHoursInTurn, List.foldlM_cons, Answer.bind_eq_ok_iff] at h
      obtain ⟨c₁, hfirst, hrest⟩ := h
      have hstep : (enterInTurn (x :: (before ++ after))).run c =
          (enterInTurn (before ++ after)).run c₁ := by
        simp only [enterInTurn, List.forM, EStateM.run_bind, run_setHours_of_ok hfirst]
      rw [List.cons_append, hstep, ih hrest]

theorem run_enterInTurn_of_ok (h : c.setHoursInTurn hours = .ok c') :
    (enterInTurn hours).run c = .ok () c' := by
  have happend := run_enterInTurn_append h []
  rwa [List.append_nil] at happend

theorem run_enterInTurn_of_stopsAt {n : Int} {cause : RuleError}
    (h : c.StopsAt hours before n c' cause) : (enterInTurn hours).run c = .error cause c' := by
  obtain ⟨⟨w, after, rfl⟩, hwritten, hrefused⟩ := h
  have hrule : DayRule.enter (some n) = .error cause :=
    DayRule.enter_eq_error_iff.mpr ⟨n, rfl, hrefused⟩
  have hlast : (Edit.setHours w (some n)).program.run c' = .error cause c' := by
    rw [Edit.run_program, Edit.run, setHours, hrule]
    rfl
  rw [run_enterInTurn_append hwritten]
  simp only [enterInTurn, List.forM, EStateM.run_bind, hlast]

/-- Entering hours at once is entering them in turn, but all or nothing.  It comes out
well when no number is negative or too large for 32 bits, that is when entering them in
turn does, and makes the same calendar.  Otherwise it fails for the cause for which the
first number that is refused makes the other fail, and leaves the calendar as it was,
while the other has then written the entries before that number. -/
theorem setHoursPerDay_atomic (c : Calendar) (hours : List (Weekday × Option Int)) :
    c.setHoursPerDay hours = c.setHoursInTurn hours ∧
      ((∃ c', c.setHoursPerDay hours = .ok c') ↔
        ∀ x ∈ hours, ∀ n ∈ x.2, 0 ≤ n ∧ n < UInt32.size) ∧
      (∀ c', c.setHoursPerDay hours = .ok c' →
        (Edit.setHoursPerDay hours).program.run c = .ok () c' ∧
          (enterInTurn hours).run c = .ok () c' ∧ c.HoursEntered hours c') ∧
      (∀ cause, c.setHoursPerDay hours = .error cause →
        (Edit.setHoursPerDay hours).program.run c = .error cause c ∧
          ∃ before n c', c.StopsAt hours before n c' cause ∧ c.HoursEntered before c' ∧
            (enterInTurn hours).run c = .error cause c') := by
  have hprogram := Edit.run_program (.setHoursPerDay hours) c
  rw [Edit.run] at hprogram
  rw [hprogram, setHoursPerDay_eq_inTurn]
  refine ⟨rfl, exists_setHoursInTurn_eq_ok_iff, ?_, ?_⟩
  · intro c' hc'
    rw [hc']
    exact ⟨rfl, run_enterInTurn_of_ok hc', hoursEntered_of_ok hc'⟩
  · intro cause hcause
    obtain ⟨before, n, c', hstops⟩ := exists_stopsAt hcause
    rw [hcause]
    exact ⟨rfl, before, n, c', hstops, hoursEntered_of_ok hstops.written,
      run_enterInTurn_of_stopsAt hstops⟩

/-- A calendar without rules. -/
abbrev unruled : Calendar := .single Registry.empty.nextId "Office" {}

/-- The calendar with six hours on Mondays. -/
abbrev sixOnMonday : Calendar :=
  { unruled with current := unruled.current.setRule .monday (.fixed ⟨6, by decide⟩) }

/-- Monday is entered twice, and the number for Tuesday is refused. -/
abbrev mondayTwice : List (Weekday × Option Int) :=
  [(.monday, some 4), (.monday, some 6), (.tuesday, some (-3)), (.friday, some 4294967296)]

/-- Entered at once, nothing is left behind; entered in turn, the second number for Monday
is, and it is all there is without the last two entries. -/
theorem setHoursPerDay_atomic_mondayTwice :
    (Edit.setHoursPerDay mondayTwice).program.run unruled = .error (.negativeHours (-3)) unruled ∧
      (enterInTurn mondayTwice).run unruled = .error (.negativeHours (-3)) sixOnMonday ∧
      (Edit.setHoursPerDay (mondayTwice.take 2)).program.run unruled = .ok () sixOnMonday := by
  have hrefused : unruled.setHoursPerDay mondayTwice = .error (.negativeHours (-3)) := by decide
  have haccepted : unruled.setHoursPerDay (mondayTwice.take 2) = .ok sixOnMonday := by decide
  obtain ⟨-, -, -, hfails⟩ := setHoursPerDay_atomic unruled mondayTwice
  obtain ⟨hnothing, _, _, c, -, -, hturn⟩ := hfails _ hrefused
  have hleft : (enterInTurn mondayTwice).run unruled =
      .error (.negativeHours (-3)) sixOnMonday := rfl
  obtain ⟨-, rfl⟩ := EStateM.Result.error.inj (hturn.symm.trans hleft)
  obtain ⟨-, -, hruns, -⟩ := setHoursPerDay_atomic unruled (mondayTwice.take 2)
  exact ⟨hnothing, hturn, (hruns _ haccepted).1⟩

end Calendar

end WorkingTime
