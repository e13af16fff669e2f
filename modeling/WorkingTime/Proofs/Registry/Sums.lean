/-
Questions about a range of dates, as loops over the range.

Both loops ask for the hours of one date after the other; one adds them up in a
number of 64 bits and the other notes the dates without hours.  There are so few
dates and so few hours on each that the sum always fits (`sum_hours_lt`), and what
the loops come to is what the library answers (`range_sums`).
-/
import WorkingTime.Proofs.Capacity
import WorkingTime.Proofs.Date.Range
import Mathlib.Algebra.Order.BigOperators.Group.List

namespace WorkingTime

/-! ## Loops over a range -/

namespace Date.Cursor

variable {σ ε : Type} {d : Date} {ds : List Date} {it it' : Cursor} {state state' : σ}

/-- What follows on the body of a loop: a failure ends the loop, a state goes on to the
next date. -/
def onward (it : Cursor) : Except ε σ → Except ε σ ⊕ σ × Cursor
  | .error e => .inl (.error e)
  | .ok state => .inr (state, it)

/-- One round of a loop, which ends when no date is left. -/
def round (body : σ → Date → Part (Except ε σ)) (state : σ) (it : Cursor) :
    Part (Except ε σ ⊕ σ × Cursor) :=
  match it.next with
  | (none, _) => .some (.inl (.ok state))
  | (some d, it') => (body state d).map (onward it')

/-- The rounds of a loop, until one ends it. -/
def loop (body : σ → Date → Part (Except ε σ)) (state : σ) (it : Cursor) : Part (Except ε σ) :=
  PFun.fix (fun x => round body x.1 x.2) (state, it)

variable {body : σ → Date → Part (Except ε σ)}

theorem loop_of_end {answer : Except ε σ} (h : round body state it = .some (.inl answer)) :
    loop body state it = .some answer := by
  have hround : Sum.inl answer ∈ round body state it := Part.eq_some_iff.mp h
  exact Part.eq_some_iff.mpr (PFun.fix_stop hround)

theorem loop_of_onward (h : round body state it = .some (.inr (state', it'))) :
    loop body state it = loop body state' it' := by
  have hround : Sum.inr (state', it') ∈ round body state it := Part.eq_some_iff.mp h
  exact PFun.fix_fwd_eq hround

theorem loop_eq_foldlM {step : σ → Date → Except ε σ}
    (hbody : ∀ state d, body state d = .some (step state d)) (h : it.Yields ds) (state : σ) :
    loop body state it = .some (ds.foldlM step state) := by
  induction h generalizing state with
  | @stop it hstop =>
      refine loop_of_end ?_
      rw [round]
      split
      · rfl
      next hnext =>
        rw [hnext] at hstop
        cases hstop
  | @more it it' d ds hnext _ ih =>
      have hround : round body state it = .some (onward it' (step state d)) := by
        simp only [round, hnext, hbody]
        exact Part.map_some _ _
      rw [List.foldlM_cons]
      cases hstep : step state d with
      | error e =>
          rw [hstep] at hround
          exact loop_of_end hround
      | ok state' =>
          rw [hstep] at hround
          rw [loop_of_onward hround]
          exact ih state'

end Date.Cursor

/-! ## Hours of many dates -/

theorem Resolution.hours_lt (x : Resolution) : x.hours < UInt32.size := by
  cases x with
  | own e => exact e.hours.isLt
  | ancestral e => exact e.hours.isLt
  | weekly hours => exact hours.isLt
  | undecided => decide

/-- The hours of all dates of a range together fit into 64 bits. -/
theorem Date.sum_hours_lt {hours : Date → Nat} (hlt : ∀ d, hours d < UInt32.size) (s e : Date) :
    ((upTo s e).map hours).sum < UInt64.size := by
  have hlength : (upTo s e).length ≤ dayCount := by
    have hfilter := List.length_filterMap_le ofIndex? (List.range' s.index (e.index + 1 - s.index))
    rw [List.length_range'] at hfilter
    have hlast := e.isLt
    exact Nat.le_trans hfilter (by omega)
  have hsum : ((upTo s e).map hours).sum ≤ (upTo s e).length * (UInt32.size - 1) := by
    have hcard := List.sum_le_card_nsmul ((upTo s e).map hours) (UInt32.size - 1) ?_
    · simpa using hcard
    · intro n hn
      obtain ⟨d, -, rfl⟩ := List.mem_map.mp hn
      exact Nat.le_sub_one_of_lt (hlt d)
  calc ((upTo s e).map hours).sum
      ≤ (upTo s e).length * (UInt32.size - 1) := hsum
    _ ≤ dayCount * (UInt32.size - 1) := Nat.mul_le_mul_right _ hlength
    _ < UInt64.size := by decide

instance : Keyed Date := ⟨Date.index⟩

/-- Why a sum of hours is not there. -/
inductive SumFault where
  /-- The question cannot be answered. -/
  | refused (error : RegistryError)
  /-- The sum does not fit into 64 bits. -/
  | overflow

namespace Registry

/-- A sum with the hours of one more date. -/
def addHours (total : Nat) : Except RegistryError Nat → Except SumFault Nat
  | .error e => .error (.refused e)
  | .ok hours => if total + hours < UInt64.size then .ok (total + hours) else .error .overflow

/-- The dates without hours, with one more if it has none. -/
def noteIdle (days : Table Date) (d : Date) :
    Except RegistryError Nat → Except RegistryError (Table Date)
  | .error e => .error e
  | .ok hours => .ok (if hours = 0 then days.insert d else days)

section Questions

variable (r : Registry) (id : CalendarId) (s e : Date)

def workableHoursWalk : Part (Except SumFault Nat) :=
  match Date.Cursor.start s e with
  | .error fault => .some (.error (.refused (.rule fault)))
  | .ok it => it.loop (fun total d => (r.capacityWalk id d).map (addHours total)) 0

def nonWorkableDaysWalk : Part (Except RegistryError (Table Date)) :=
  match Date.Cursor.start s e with
  | .error fault => .some (.error (.rule fault))
  | .ok it => it.loop (fun days d => (r.capacityWalk id d).map (noteIdle days d)) .empty

end Questions

variable {r : Registry} {id : CalendarId} {s e : Date} {hours : Date → Nat}

/-! ## What the questions come to -/

theorem workableHours_of_le (hse : s ≤ e) :
    r.workableHours id s e =
      List.foldl (· + ·) 0 <$> (Date.upTo s e).mapM (r.capacityAt id) := by
  rw [workableHours, Date.range_of_le hse]
  rfl

theorem nonWorkableDays_of_le (hse : s ≤ e) :
    r.nonWorkableDays id s e =
      (fun hours => (((Date.upTo s e).zip hours).filter (·.2 == 0)).map (·.1)) <$>
        (Date.upTo s e).mapM (r.capacityAt id) := by
  rw [nonWorkableDays, Date.range_of_le hse, map_eq_pure_bind]
  rfl

theorem capacityWalk_eq (h : r.WellFormed) (id : CalendarId) (d : Date) :
    r.capacityWalk id d = .some (r.capacityAt id d) :=
  ((ends_resolveWalk h id d).map Resolution.hours).ends

theorem workableHoursWalk_eq (h : r.WellFormed) (hse : s ≤ e) :
    r.workableHoursWalk id s e =
      .some ((Date.upTo s e).foldlM (fun total d => addHours total (r.capacityAt id d)) 0) := by
  rw [workableHoursWalk, Date.Cursor.start_of_le hse]
  refine Date.Cursor.loop_eq_foldlM (fun total d => ?_) (Date.Cursor.yields_upTo hse) 0
  rw [capacityWalk_eq h]
  exact Part.map_some _ _

theorem nonWorkableDaysWalk_eq (h : r.WellFormed) (hse : s ≤ e) :
    r.nonWorkableDaysWalk id s e =
      .some ((Date.upTo s e).foldlM (fun days d => noteIdle days d (r.capacityAt id d))
        Table.empty) := by
  rw [nonWorkableDaysWalk, Date.Cursor.start_of_le hse]
  refine Date.Cursor.loop_eq_foldlM (fun days d => ?_) (Date.Cursor.yields_upTo hse) Table.empty
  rw [capacityWalk_eq h]
  exact Part.map_some _ _

/-! ## Ranges that are refused -/

/-- Both questions about a range fail for this cause, and so do the loops. -/
structure RangeFails (r : Registry) (id : CalendarId) (s e : Date) (cause : RegistryError) :
    Prop where
  workableHours : r.workableHours id s e = .error cause
  workableHoursWalk : r.workableHoursWalk id s e = .some (.error (.refused cause))
  nonWorkableDays : r.nonWorkableDays id s e = .error cause
  nonWorkableDaysWalk : r.nonWorkableDaysWalk id s e = .some (.error cause)

theorem rangeFails_of_lt (r : Registry) (id : CalendarId) (h : e < s) :
    r.RangeFails id s e (.rule (.reversedRange s e)) := by
  have hrange : Date.range s e = .error (.reversedRange s e) := by
    rw [Date.range, Date.checkRange_of_lt h]
    rfl
  have hstart := Date.Cursor.start_of_lt h
  constructor
  · rw [Registry.workableHours, hrange]
    rfl
  · rw [Registry.workableHoursWalk, hstart]
  · rw [Registry.nonWorkableDays, hrange]
    rfl
  · rw [Registry.nonWorkableDaysWalk, hstart]

theorem rangeFails_of_missing (h : r.WellFormed) (hmissing : ∀ c ∈ r.calendars.rows, c.id ≠ id)
    (hse : s ≤ e) : r.RangeFails id s e (.unknownId id) := by
  have hcapacity : ∀ d, r.capacityAt id d = .error (.unknownId id) := by
    intro d
    exact ((ends_resolveWalk h id d).map Resolution.hours).unknown_of_missing hmissing
  obtain ⟨rest, hrest⟩ := Date.exists_upTo_cons hse
  constructor
  · rw [workableHours_of_le hse, hrest, List.mapM_cons, hcapacity]
    rfl
  · rw [workableHoursWalk_eq h hse, hrest, List.foldlM_cons, hcapacity]
    rfl
  · rw [nonWorkableDays_of_le hse, hrest, List.mapM_cons, hcapacity]
    rfl
  · rw [nonWorkableDaysWalk_eq h hse, hrest, List.foldlM_cons, hcapacity]
    rfl

/-! ## Ranges that are answered -/

section Answered

variable (hhours : ∀ d, r.capacityAt id d = .ok (hours d))

include hhours

theorem mapM_capacityAt (ds : List Date) : ds.mapM (r.capacityAt id) = .ok (ds.map hours) := by
  rw [Answer.mapM_eq_ok_iff, List.forall₂_map_right_iff, List.forall₂_same]
  exact fun d _ => hhours d

theorem workableHours_eq (hse : s ≤ e) :
    r.workableHours id s e = .ok ((Date.upTo s e).map hours).sum := by
  rw [workableHours_of_le hse, mapM_capacityAt hhours, List.sum_eq_foldl]
  rfl

theorem nonWorkableDays_eq (hse : s ≤ e) :
    r.nonWorkableDays id s e = .ok ((Date.upTo s e).filter (hours · == 0)) := by
  have hzip : ∀ ds : List Date,
      ((ds.zip (ds.map hours)).filter (·.2 == 0)).map (·.1) = ds.filter (hours · == 0) := by
    intro ds
    induction ds with
    | nil => rfl
    | cons d ds ih =>
        rw [List.map_cons, List.zip_cons_cons, List.filter_cons, List.filter_cons, ← ih]
        split <;> rfl
  rw [nonWorkableDays_of_le hse, mapM_capacityAt hhours, ← hzip]
  rfl

/-- No sum on the way is too large when the last one is not. -/
theorem foldlM_addHours {ds : List Date} (hlt : (ds.map hours).sum < UInt64.size) :
    ds.foldlM (fun total d => addHours total (r.capacityAt id d)) 0 =
      .ok (ds.map hours).sum := by
  have hfold := Answer.foldlM_eq_ok (f := fun total d => addHours total (r.capacityAt id d))
    (g := fun total d => total + hours d)
    (P := fun total ds => total + (ds.map hours).sum < UInt64.size) (l := ds) (b := 0) ?_ ?_
  · rw [hfold, List.sum_eq_foldl, List.foldl_map]
  · intro total d ds hfits
    rw [List.map_cons, List.sum_cons] at hfits
    have hnext : total + hours d < UInt64.size := by omega
    refine ⟨?_, by omega⟩
    rw [hhours, addHours, if_pos hnext]
  · omega

theorem foldlM_noteIdle (ds : List Date) (days : Table Date) :
    ds.foldlM (fun days d => noteIdle days d (r.capacityAt id d)) days =
      .ok ((ds.filter (hours · == 0)).foldl Table.insert days) := by
  induction ds generalizing days with
  | nil => rfl
  | cons d ds ih =>
      rw [List.foldlM_cons, hhours, noteIdle, Answer.ok_bind, ih]
      by_cases hzero : hours d = 0
      · rw [if_pos hzero, List.filter_cons_of_pos (by simpa using hzero), List.foldl_cons]
      · rw [if_neg hzero, List.filter_cons_of_neg (by simpa using hzero)]

end Answered

/-- The questions about a range of dates, of which each has so many hours, are answered
by the sum of these hours and by the dates without hours. -/
structure SumsUp (r : Registry) (id : CalendarId) (s e : Date) (hours : Date → Nat) : Prop where
  /-- The cursor hands out the dates of the range, each once and in order, and stops. -/
  dates : ∃ it, Date.Cursor.start s e = .ok it ∧ (∀ ds, it.Yields ds ↔ ds = Date.upTo s e) ∧
    (Date.upTo s e).Pairwise (· < ·) ∧ ∀ d, d ∈ Date.upTo s e ↔ s ≤ d ∧ d ≤ e
  total : r.workableHours id s e = .ok ((Date.upTo s e).map hours).sum
  total_walk : r.workableHoursWalk id s e = .some (.ok ((Date.upTo s e).map hours).sum)
  /-- A range can be cut in two anywhere. -/
  parts : ∀ m, s ≤ m → m < e → ∃ m' a b, m.tomorrow? = some m' ∧
    r.workableHours id s m = .ok a ∧ r.workableHours id m' e = .ok b ∧
    r.workableHours id s e = .ok (a + b)
  idle : ∃ days : Table Date, r.nonWorkableDays id s e = .ok days.rows ∧
    r.nonWorkableDaysWalk id s e = .some (.ok days) ∧
    (∀ d, d ∈ days.rows ↔ (s ≤ d ∧ d ≤ e) ∧ hours d = 0) ∧
    (days.rows = Date.upTo s e ↔ ((Date.upTo s e).map hours).sum = 0)

theorem sumsUp (h : r.WellFormed) (hhours : ∀ d, r.capacityAt id d = .ok (hours d))
    (hlt : ∀ d, hours d < UInt32.size) (hse : s ≤ e) : r.SumsUp id s e hours := by
  have hascending := Date.upTo_ascending s e
  refine ⟨⟨_, Date.Cursor.start_of_le hse, ?_, hascending, fun d => Date.mem_upTo⟩,
    workableHours_eq hhours hse, ?_, ?_, ?_⟩
  · intro ds
    constructor
    · exact (Date.Cursor.yields_upTo hse).unique
    · rintro rfl
      exact Date.Cursor.yields_upTo hse
  · rw [workableHoursWalk_eq h hse, foldlM_addHours hhours (Date.sum_hours_lt hlt s e)]
  · intro m hsm hme
    obtain ⟨m', htomorrow, hm'⟩ := Date.exists_tomorrow hme
    have hm'e : m' ≤ e := by
      rw [Date.le_iff, hm']
      exact hme
    refine ⟨m', _, _, htomorrow, workableHours_eq hhours hsm, workableHours_eq hhours hm'e, ?_⟩
    rw [workableHours_eq hhours hse, Date.upTo_append hsm hme hm', List.map_append,
      List.sum_append]
  · let days : Table Date := ⟨(Date.upTo s e).filter (hours · == 0), hascending.filter _⟩
    refine ⟨days, nonWorkableDays_eq hhours hse, ?_, ?_, ?_⟩
    · rw [nonWorkableDaysWalk_eq h hse, foldlM_noteIdle hhours]
      exact congrArg (fun days => Part.some (Except.ok days)) days.foldl_insert_rows
    · intro d
      rw [List.mem_filter, Date.mem_upTo, beq_iff_eq]
    · rw [List.filter_eq_self, List.sum_eq_zero_iff]
      simp

/-- On a range from a date to a later or the same one, both questions are answered for
every calendar: the sum is the exact sum of the hours of its dates, which fits into 64
bits whatever hours the dates may have, and the other answer is the dates without
hours.  On a reversed range both fail, and then for a missing calendar. -/
theorem range_sums (h : r.Reachable) (id : CalendarId) (s e : Date) :
    (s ≤ e → (∃ c ∈ r.calendars.rows, c.id = id) → ∃ hours : Date → Nat,
      (∀ d, r.capacityAt id d = .ok (hours d) ∧ hours d < UInt32.size) ∧
        r.SumsUp id s e hours) ∧
      (∀ hours : Date → Nat, (∀ d, hours d < UInt32.size) →
        ((Date.upTo s e).map hours).sum < UInt64.size) ∧
      (e < s → r.RangeFails id s e (.rule (.reversedRange s e))) ∧
      (s ≤ e → (∀ c ∈ r.calendars.rows, c.id ≠ id) →
        r.RangeFails id s e (.unknownId id)) := by
  have hwf := h.wellFormed
  refine ⟨?_, fun hours hlt => Date.sum_hours_lt hlt s e, rangeFails_of_lt r id,
    fun hse hmissing => rangeFails_of_missing hwf hmissing hse⟩
  rintro hse ⟨c, hc, rfl⟩
  have hhours : ∀ d, r.capacityAt c.id d = .ok (r.decisionOn c.id d).hours := by
    intro d
    rw [capacityAt, resolve_eq_decisionOn hwf hc d]
    rfl
  have hlt : ∀ d, (r.decisionOn c.id d).hours < UInt32.size :=
    fun d => (r.decisionOn c.id d).hours_lt
  exact ⟨_, fun d => ⟨hhours d, hlt d⟩, sumsUp hwf hhours hlt hse⟩

/-- The first of the last fourteen supported days. -/
abbrev lastFortnight : Date := ⟨7304470, by decide⟩

/-- The last supported day. -/
abbrev lastDay : Date := ⟨7304483, by decide⟩

/-- The last fourteen days have two Mondays of eight hours each for "Summer", and no
sum backwards or for a calendar that is not there. -/
theorem range_sums_derived :
    (empty.after derivedHistory).workableHoursWalk summerId lastFortnight lastDay =
        .some (.ok 16) ∧
      (empty.after derivedHistory).RangeFails summerId lastDay lastFortnight
        (.rule (.reversedRange lastDay lastFortnight)) ∧
      (empty.after derivedHistory).RangeFails ⟨9, by decide⟩ lastFortnight lastDay
        (.unknownId ⟨9, by decide⟩) := by
  have hreach : (empty.after derivedHistory).Reachable := Reachable.empty.after derivedHistory
  have hsummer : ∃ c ∈ (empty.after derivedHistory).calendars.rows, c.id = summerId := by
    decide +kernel
  have hmissing : ∀ c ∈ (empty.after derivedHistory).calendars.rows,
      c.id ≠ ⟨9, by decide⟩ := by
    decide +kernel
  have hsixteen : (empty.after derivedHistory).workableHours summerId lastFortnight lastDay =
      .ok 16 := by
    decide +kernel
  obtain ⟨hours, -, hsums⟩ :=
    (range_sums hreach summerId lastFortnight lastDay).1 (by decide) hsummer
  have htotal : ((Date.upTo lastFortnight lastDay).map hours).sum = 16 :=
    Except.ok.inj (hsums.total.symm.trans hsixteen)
  refine ⟨htotal ▸ hsums.total_walk, ?_, ?_⟩
  · exact (range_sums hreach summerId lastDay lastFortnight).2.2.1 (by decide)
  · exact (range_sums hreach ⟨9, by decide⟩ lastFortnight lastDay).2.2.2 (by decide) hmissing

end Registry

end WorkingTime
