/-
The hours and the kind of a date, as equations between calendars.

`Delegates` says what the answers ought to be: the version in effect decides by
an exception or a weekday rule, else its parent decides as if it had been asked
itself, and without a parent there are no hours.  The equations refer from a
calendar to its parent, so they have at most one solution where parents are
well-founded (`Delegates.unique`); the answers of the library are one
(`delegates_answers`).
-/
import WorkingTime.Proofs.Registry.Walk

namespace WorkingTime

/-! ## What is passed down -/

/-- A kind of date as seen from a calendar that leaves the date to its parent. -/
def DayType.passedDown : DayType → DayType
  | .ownException => .ancestorException
  | kind => kind

@[simp] theorem Resolution.hours_passedDown (x : Resolution) : x.passedDown.hours = x.hours := by
  cases x <;> rfl

@[simp] theorem Resolution.dayType_passedDown (x : Resolution) :
    x.passedDown.dayType = x.dayType.passedDown := by
  cases x with
  | weekly h =>
      show (if h.value = 0 then DayType.zeroHours else .normal) =
        (if h.value = 0 then DayType.zeroHours else .normal).passedDown
      split <;> rfl
  | _ => rfl

namespace Registry

variable {r : Registry}

/-! ## The equations -/

/-- Hours and kinds of dates solve the equations of a registry. -/
def Delegates (r : Registry) (hours : CalendarId → Date → Nat)
    (kind : CalendarId → Date → DayType) : Prop :=
  ∀ c ∈ r.calendars.rows, ∀ d, ∀ v ∈ c.versions, v.contains d = true →
    match v.exceptionOn? d, v.week.get d.weekday, v.parent with
    | some e, _, _ => hours c.id d = e.hours.value ∧ kind c.id d = .ownException
    | none, .fixed h, _ =>
        hours c.id d = h.value ∧ kind c.id d = if h.value = 0 then .zeroHours else .normal
    | none, .inherited, some p =>
        hours c.id d = hours p d ∧ kind c.id d = (kind p d).passedDown
    | none, .inherited, none => hours c.id d = 0 ∧ kind c.id d = .zeroHours

theorem Delegates.unique (h : r.WellFormed) {hours hours' : CalendarId → Date → Nat}
    {kind kind' : CalendarId → Date → DayType} (hsol : r.Delegates hours kind)
    (hsol' : r.Delegates hours' kind') (d : Date) :
    ∀ c ∈ r.calendars.rows, hours' c.id d = hours c.id d ∧ kind' c.id d = kind c.id d := by
  suffices ∀ id, ∀ c ∈ r.calendars.rows, c.id = id →
      hours' c.id d = hours c.id d ∧ kind' c.id d = kind c.id d from fun c hc => this c.id c hc rfl
  intro id
  induction id using h.parent_induction with
  | hstep id ih =>
      rintro c hc rfl
      have hv := c.versionAt_mem_versions d
      have hin := Calendar.contains_versionAt (h.chained c hc) d
      have heq := hsol c hc d _ hv hin
      have heq' := hsol' c hc d _ hv hin
      cases he : (c.versionAt d).exceptionOn? d with
      | some e =>
          simp only [he] at heq heq'
          exact ⟨heq'.1.trans heq.1.symm, heq'.2.trans heq.2.symm⟩
      | none =>
          cases hw : (c.versionAt d).week.get d.weekday with
          | fixed hrs =>
              simp only [he, hw] at heq heq'
              exact ⟨heq'.1.trans heq.1.symm, heq'.2.trans heq.2.symm⟩
          | inherited =>
              cases hp : (c.versionAt d).parent with
              | none =>
                  simp only [he, hw, hp] at heq heq'
                  exact ⟨heq'.1.trans heq.1.symm, heq'.2.trans heq.2.symm⟩
              | some p =>
                  simp only [he, hw, hp] at heq heq'
                  -- both solutions answer as they do for the parent
                  have hedge := hasParent_of_pick (fun c => c.versionAt_mem_versions d) hc hp
                  obtain ⟨k, hk, rfl⟩ := h.closed c.id p hedge
                  obtain ⟨hhours, hkind⟩ := ih k.id hedge k hk rfl
                  exact ⟨by rw [heq.1, heq'.1, hhours], by rw [heq.2, heq'.2, hkind]⟩

/-! ## The solution -/

/-- What the decision for a date rests on; nothing for an id without a
calendar. -/
def decisionOn (r : Registry) (id : CalendarId) (d : Date) : Resolution :=
  match r.resolve id d with
  | .ok x => x
  | .error _ => .undecided

theorem resolve_eq_decisionOn (h : r.WellFormed) {c : Calendar} (hc : c ∈ r.calendars.rows)
    (d : Date) : r.resolve c.id d = .ok (r.decisionOn c.id d) := by
  obtain ⟨x, hx⟩ := (ends_resolveWalk h c.id d).value_of_mem ⟨c, hc, rfl⟩
  rw [decisionOn, hx]

/-- The decision of a calendar is that of the version in effect, or else the one of the
parent, seen from below. -/
theorem decisionOn_eq (h : r.WellFormed) {c : Calendar} (hc : c ∈ r.calendars.rows) (d : Date) :
    r.decisionOn c.id d = ((c.versionAt d).decision? d).getD
      (match (c.versionAt d).parent with
      | some p => (r.decisionOn p d).passedDown
      | none => .undecided) := by
  obtain ⟨rest, hrest, hend, hparent⟩ :=
    versionsAlong_cons h (fun c => c.versionAt_mem_versions d) hc
  have hdecision : r.decisionOn c.id d = Version.resolve d (c.versionAt d :: rest) := by
    rw [decisionOn, resolve, hrest]
    rfl
  rw [hdecision, Version.resolve]
  cases hp : (c.versionAt d).parent with
  | none =>
      rw [hend hp]
      rfl
  | some p =>
      have habove : r.decisionOn p d = Version.resolve d rest := by
        rw [decisionOn, resolve, hparent p hp]
        rfl
      rw [← habove]

theorem delegates_answers (h : r.WellFormed) :
    r.Delegates (fun id d => (r.decisionOn id d).hours) fun id d =>
      (r.decisionOn id d).dayType := by
  intro c hc d v hv hin
  obtain rfl := (Calendar.versionAt_eq_iff (h.chained c hc)).mpr ⟨hv, hin⟩
  simp only [decisionOn_eq h hc d, Version.decision?]
  cases (c.versionAt d).exceptionOn? d with
  | some e => exact ⟨rfl, rfl⟩
  | none =>
      cases (c.versionAt d).week.get d.weekday with
      | fixed hours => exact ⟨rfl, rfl⟩
      | inherited =>
          cases (c.versionAt d).parent with
          | none => exact ⟨rfl, rfl⟩
          | some p => exact ⟨Resolution.hours_passedDown _, Resolution.dayType_passedDown _⟩

/-- On every date one version of a calendar is in effect; the equations of a
reachable registry have one solution on its calendars; and this is what the
library answers, and what the loop that follows parents comes to. -/
theorem capacity_solves_delegation (h : r.Reachable) :
    (∀ c ∈ r.calendars.rows, ∀ d v,
        c.versionAt d = v ↔ v ∈ c.versions ∧ v.contains d = true) ∧
      ∃ hours kind, r.Delegates hours kind ∧
        (∀ hours' kind', r.Delegates hours' kind' → ∀ c ∈ r.calendars.rows, ∀ d,
          hours' c.id d = hours c.id d ∧ kind' c.id d = kind c.id d) ∧
        ∀ c ∈ r.calendars.rows, ∀ d,
          r.capacityAt c.id d = .ok (hours c.id d) ∧ r.classify c.id d = .ok (kind c.id d) ∧
          r.capacityWalk c.id d = .some (.ok (hours c.id d)) ∧
          r.classifyWalk c.id d = .some (.ok (kind c.id d)) := by
  have hwf := h.wellFormed
  refine ⟨fun c hc _ _ => Calendar.versionAt_eq_iff (hwf.chained c hc), _, _,
    delegates_answers hwf, ?_, ?_⟩
  · intro hours' kind' hsol' c hc d
    exact (delegates_answers hwf).unique hwf hsol' d c hc
  · intro c hc d
    have hresolve := resolve_eq_decisionOn hwf hc d
    have hcapacity : r.capacityAt c.id d = .ok _ := congrArg (Resolution.hours <$> ·) hresolve
    have hclass : r.classify c.id d = .ok _ := congrArg (Resolution.dayType <$> ·) hresolve
    have hwalk := ends_resolveWalk hwf c.id d
    exact ⟨hcapacity, hclass, (hwalk.map _).ends.trans (congrArg Part.some hcapacity),
      (hwalk.map _).ends.trans (congrArg Part.some hclass)⟩

theorem capacity_solves_delegation_derived :
    ∃ hours kind, (empty.after derivedHistory).Delegates hours kind ∧
      ∀ c ∈ (empty.after derivedHistory).calendars.rows, ∀ d,
        (empty.after derivedHistory).capacityWalk c.id d = .some (.ok (hours c.id d)) := by
  obtain ⟨-, hours, kind, hsol, -, hanswers⟩ :=
    capacity_solves_delegation (Reachable.empty.after derivedHistory)
  exact ⟨hours, kind, hsol, fun c hc d => (hanswers c hc d).2.2.1⟩

end Registry

end WorkingTime
