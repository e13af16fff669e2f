/-
What an edit of rules does to the answers for a date.

Edits write to the current version, and the version in effect is asked; the two are
one from the start of the current version on.  A new exception is refused on earlier
dates, so it always has its effect.  An exception that is replaced or removed may be
on an earlier date, since a new version takes all exceptions of the one before it;
then the edit comes out well and no answer for that date changes.  Main statements:

  * `new_rule_effects`: what a new exception and a weekday rule change, and for whom;
  * `exception_edits_from_start`: when a replaced or removed exception has an effect.
-/
import WorkingTime.Proofs.Calendar.Rules
import WorkingTime.Proofs.Registry.Exceptions
import WorkingTime.Proofs.Registry.Visited

namespace WorkingTime

/-! ## Decisions of an edited version -/

namespace Version

variable {v : Version} {e : ExceptionDay} {d : Date} {w : Weekday} {rule : DayRule}

theorem decision?_insert_self :
    { v with exceptions := v.exceptions.insert e }.decision? e.date = some (.own e) := by
  have he : { v with exceptions := v.exceptions.insert e }.exceptionOn? e.date = some e :=
    Table.find?_insert_self
  rw [decision?, he]

theorem decision?_insert_of_ne (hd : d ≠ e.date) :
    { v with exceptions := v.exceptions.insert e }.decision? d = v.decision? d := by
  have he : { v with exceptions := v.exceptions.insert e }.exceptionOn? d = v.exceptionOn? d :=
    Table.find?_insert_of_ne fun heq => hd (Date.ext heq)
  rw [decision?, he]
  rfl

theorem decision?_setRule_of_ne (hw : d.weekday ≠ w) :
    (v.setRule w rule).decision? d = v.decision? d := by
  have hrule : (v.setRule w rule).week.get d.weekday = v.week.get d.weekday :=
    (v.week.get_set w d.weekday rule).trans (if_neg hw)
  rw [decision?, hrule]
  rfl

theorem decision?_setRule_of_exception (he : v.exceptionOn? d = some e) :
    (v.setRule w rule).decision? d = v.decision? d := by
  have he' : (v.setRule w rule).exceptionOn? d = some e := he
  rw [decision?, decision?, he, he']

theorem decision?_setRule_self (he : v.exceptionOn? d = none) (hw : d.weekday = w) :
    (v.setRule w rule).decision? d = rule.hours?.map .weekly := by
  have he' : (v.setRule w rule).exceptionOn? d = none := he
  have hrule : (v.setRule w rule).week.get d.weekday = rule :=
    (v.week.get_set w d.weekday rule).trans (if_pos hw)
  rw [decision?, he', hrule]

end Version

/-- The dates that the current version has for a weekday, without those of exceptions. -/
def Calendar.RuleDecides (c : Calendar) (w : Weekday) (d : Date) : Prop :=
  d.weekday = w ∧ (∀ s ∈ c.current.validFrom, s ≤ d) ∧ c.current.exceptionOn? d = none

theorem Resolution.dayType_eq_ownException_iff {x : Resolution} :
    x.dayType = .ownException ↔ ∃ e, x = .own e := by
  cases x with
  | weekly hours =>
      rw [dayType]
      split <;> simp
  | _ => simp [dayType]

open Relation (ReflTransGen)

namespace Registry

variable {r r' : Registry} {c : Calendar} {d : Date} {q k : CalendarId}

/-! ## Another current version -/

section Current

variable {v : Version} (h : r.WellFormed) (hc : c ∈ r.calendars.rows)

include h hc

theorem decidesOn_put_current (hd : ∀ s ∈ c.current.validFrom, s ≤ d) :
    (r.put { c with current := v }).DecidesOn d c.id (v.decision? d) v.parent := by
  have hdecides : (r.put { c with current := v }).DecidesOn d c.id _ _ := decidesOn_put rfl d
  rwa [(Calendar.versionAt_withCurrent (h.chained c hc) v d).1 hd] at hdecides

/-- A current version that decides a date as the one before it, or is not in effect
on it, is not noticed on that date. -/
theorem sameOn_put_current (h' : (r.put { c with current := v }).WellFormed)
    (hv : (∀ s ∈ c.current.validFrom, s ≤ d) →
      v.decision? d = c.current.decision? d ∧ v.parent = c.current.parent) (q : CalendarId) :
    r.SameOn (r.put { c with current := v }) q d := by
  have hversion := Calendar.versionAt_withCurrent (h.chained c hc) v d
  have hsame : ({ c with current := v }.versionAt d).decision? d =
        (c.versionAt d).decision? d ∧
      ({ c with current := v }.versionAt d).parent = (c.versionAt d).parent := by
    by_cases hd : ∀ s ∈ c.current.validFrom, s ≤ d
    · have hcurrent : c.versionAt d = c.current :=
        (Calendar.versionAt_withCurrent (h.chained c hc) c.current d).1 hd
      rw [hversion.1 hd, hcurrent]
      exact hv hd
    · have hbefore : ∃ s ∈ c.current.validFrom, d < s := by
        simpa [Date.not_le] using hd
      rw [hversion.2 hbefore]
      exact ⟨rfl, rfl⟩
  have hid : { c with current := v }.id = c.id := rfl
  exact sameOn_of_resolve (resolve_put_of_decision hid h h' hc hsame.1 hsame.2 q)

theorem sameOn_put_earlier (h' : (r.put { c with current := v }).WellFormed)
    (hd : ∃ s ∈ c.current.validFrom, d < s) (q : CalendarId) :
    r.SameOn (r.put { c with current := v }) q d := by
  refine sameOn_put_current h hc h' ?_ q
  intro hall
  obtain ⟨s, hs, hds⟩ := hd
  exact absurd (hall s hs) (Date.not_le.mpr hds)

end Current

theorem capacityAt_of_visits (h : r.WellFormed) (hvisits : r.Visits q d k) :
    r.capacityAt q d = r.capacityAt k d := by
  by_cases hqk : q = k
  · rw [hqk]
  · rw [capacityAt, capacityAt, resolve_of_visits h hvisits hqk, Functor.map_map]
    simp only [Resolution.hours_passedDown]

theorem classify_of_no_own_exception (h : r.WellFormed) (hc : c ∈ r.calendars.rows)
    (he : c.ownExceptionOn? d = none) :
    ∃ kind, r.classify c.id d = .ok kind ∧ kind ≠ .ownException := by
  obtain ⟨rest, hrest, -, -⟩ := versionsAlong_cons h (fun c => c.versionAt_mem_versions d) hc
  have hresolve : r.resolve c.id d = .ok _ := congrArg (Version.resolve d <$> ·) hrest
  refine ⟨_, (answersOn_of_resolve hresolve).classify, ?_⟩
  intro hkind
  obtain ⟨e, hown⟩ := Resolution.dayType_eq_ownException_iff.mp hkind
  rw [Version.resolve_eq_own_iff] at hown
  exact Option.some_ne_none e (hown.symm.trans he)

/-! ## New exceptions and weekday rules -/

/-- A new exception decides its date for the calendar and for all that come to it,
and is not noticed otherwise. -/
theorem addException_effect (h : r.WellFormed) (hc : c ∈ r.calendars.rows) {e : ExceptionDay}
    (hr' : r.perform (.edit c.id (.addException e)) = .ok r') :
    r'.AnswersOn c.id e.date e.hours.value .ownException (some e) ∧
      (∀ q, q ≠ c.id → r.Visits q e.date c.id →
        r'.AnswersOn q e.date e.hours.value .ancestorException (some e)) ∧
      ∀ q d, (d = e.date → ¬ r.Visits q d c.id) → r.SameOn r' q d := by
  have hwf' : r'.WellFormed := h.perform hr'
  obtain ⟨c', hrun, rfl⟩ := (perform_edit_iff hc).mp hr'
  obtain ⟨hstart, -, rfl⟩ := Calendar.addException_eq_ok_iff.mp hrun
  have hdecides := decidesOn_put_current
    (v := { c.current with exceptions := c.current.exceptions.insert e }) h hc hstart
  rw [Version.decision?_insert_self] at hdecides
  have hown := resolve_of_decided hwf' hdecides
  refine ⟨answersOn_of_resolve hown, ?_, ?_⟩
  · intro q hq hvisits
    have hpassed := resolve_of_visits hwf' (visits_put (r := r) rfl h hvisits) hq
    rw [hown] at hpassed
    exact answersOn_of_resolve (x := .ancestral e) hpassed
  · intro q d hunseen
    by_cases hd : d = e.date
    · exact sameOn_of_resolve (resolve_put_of_not_visits rfl h hwf' (hunseen hd))
    · exact sameOn_put_current h hc hwf' (fun _ => ⟨Version.decision?_insert_of_ne hd, rfl⟩) q

/-- The hours of a date that is left to a weekday rule: those of the rule, or without
them those of the parent. -/
def RuleGives (r : Registry) (d : Date) (parent : Option CalendarId) :
    (hours : Option Int) → (value : Nat) → Prop
  | some entered, value => (value : Int) = entered
  | none, value =>
      match parent with
      | some p => r.capacityAt p d = .ok value
      | none => value = 0

theorem capacityAt_setRule (h : r.WellFormed) (hc : c ∈ r.calendars.rows) {w : Weekday}
    {rule : DayRule} (h' : (r.put { c with current := c.current.setRule w rule }).WellFormed)
    (hdate : c.RuleDecides w d) {hours : Option Int} (hrule : DayRule.enter hours = .ok rule) :
    ∃ value, (r.put { c with current := c.current.setRule w rule }).capacityAt c.id d = .ok value ∧
      r.RuleGives d c.current.parent hours value ∧
      (r.put { c with current := c.current.setRule w rule }).RuleGives d c.current.parent hours
        value := by
  obtain ⟨hw, hd, he⟩ := hdate
  have hdecides : (r.put { c with current := c.current.setRule w rule }).DecidesOn d c.id _
      c.current.parent := decidesOn_put_current h hc hd
  rw [Version.decision?_setRule_self he hw] at hdecides
  cases hours with
  | some entered =>
      obtain ⟨kept, hkept, rfl⟩ := Answer.map_eq_ok_iff.mp hrule
      have hvalue : (kept.value : Int) = entered := Hours.check_eq_ok_iff.mp hkept
      exact ⟨kept.value, (answersOn_of_resolve (resolve_of_decided h' hdecides)).capacityAt,
        hvalue, hvalue⟩
  | none =>
      obtain rfl : DayRule.inherited = rule := Except.ok.inj hrule
      cases hp : c.current.parent with
      | none =>
          rw [hp] at hdecides
          exact ⟨0, (answersOn_of_resolve (resolve_of_orphan h' hdecides)).capacityAt, rfl, rfl⟩
      | some p =>
          -- the parent does not come to the calendar, so it has the hours that it had
          rw [hp] at hdecides
          have hedge : r.HasParent c.id p := hasParent_of_pick Calendar.current_mem_versions hc hp
          obtain ⟨k, hk, rfl⟩ := h.closed c.id p hedge
          have hunseen : ¬ r.Visits k.id d c.id := not_visits_of_parent h hedge
          have hkeeps := sameOn_of_resolve (resolve_put_of_not_visits rfl h h' hunseen)
          have hvalue := (answersOn_of_resolve (resolve_eq_decisionOn h hk d)).capacityAt
          have hvalue' := hkeeps.capacityAt.trans hvalue
          have hstep := capacityAt_of_visits h' (visits_iff.mpr (.single hdecides))
          exact ⟨_, hstep.trans hvalue', hvalue, hvalue'⟩

/-- A weekday rule is noticed on the dates that are left to it, by those that come to
the calendar.  They have its hours there, or those of the parent without a rule. -/
theorem setHours_effect (h : r.WellFormed) (hc : c ∈ r.calendars.rows) {w : Weekday}
    {hours : Option Int} (hr' : r.perform (.edit c.id (.setHours w hours)) = .ok r') :
    (∀ q d, ¬ (c.RuleDecides w d ∧ r.Visits q d c.id) → r.SameOn r' q d) ∧
      ∀ q d, c.RuleDecides w d → r.Visits q d c.id → ∃ value, r'.capacityAt q d = .ok value ∧
        r.RuleGives d c.current.parent hours value ∧ r'.RuleGives d c.current.parent hours value := by
  have hwf' : r'.WellFormed := h.perform hr'
  obtain ⟨c', hrun, rfl⟩ := (perform_edit_iff hc).mp hr'
  obtain ⟨rule, hrule, rfl⟩ := Calendar.setHours_eq_ok_iff.mp hrun
  constructor
  · intro q d hunseen
    by_cases hvisits : r.Visits q d c.id
    · refine sameOn_put_current h hc hwf' (fun hd => ⟨?_, rfl⟩) q
      cases he : c.current.exceptionOn? d with
      | some e => exact Version.decision?_setRule_of_exception he
      | none =>
          refine Version.decision?_setRule_of_ne fun hw => hunseen ⟨⟨hw, hd, he⟩, hvisits⟩
    · exact sameOn_of_resolve (resolve_put_of_not_visits rfl h hwf' hvisits)
  · intro q d hdate hvisits
    have hvisits' : (r.put { c with current := c.current.setRule w rule }).Visits q d c.id :=
      visits_put rfl h hvisits
    rw [capacityAt_of_visits hwf' hvisits']
    exact capacityAt_setRule h hc hwf' hdate hrule

/-- A new exception has its effect on its date, for the calendar and for those that
come to it; a weekday rule has its effect on the dates that the current version has
for the weekday, for those that come to the calendar.  No other answer changes. -/
theorem new_rule_effects (h : r.Reachable) (hc : c ∈ r.calendars.rows) :
    (∀ e r', r.perform (.edit c.id (.addException e)) = .ok r' →
      r'.AnswersOn c.id e.date e.hours.value .ownException (some e) ∧
      (∀ q, q ≠ c.id → r.Visits q e.date c.id →
        r'.AnswersOn q e.date e.hours.value .ancestorException (some e)) ∧
      ∀ q d, (d = e.date → ¬ r.Visits q d c.id) → r.SameOn r' q d) ∧
    ∀ w hours r', r.perform (.edit c.id (.setHours w hours)) = .ok r' →
      (∀ q d, ¬ (c.RuleDecides w d ∧ r.Visits q d c.id) → r.SameOn r' q d) ∧
      ∀ q d, c.RuleDecides w d → r.Visits q d c.id → ∃ value, r'.capacityAt q d = .ok value ∧
        r.RuleGives d c.current.parent hours value ∧ r'.RuleGives d c.current.parent hours value :=
  ⟨fun _ _ hr' => addException_effect h.wellFormed hc hr',
    fun _ _ _ hr' => setHours_effect h.wellFormed hc hr'⟩

/-- A holiday and another rule for Mondays in "Standard", as "Summer" has them. -/
theorem new_rule_effects_derived :
    (∃ r', (empty.after derivedHistory).perform
        (.edit empty.nextId (.addException (holiday holidayTuesday ⟨3, by decide⟩))) = .ok r' ∧
      r'.AnswersOn summerId holidayTuesday 3 .ancestorException
        (some (holiday holidayTuesday ⟨3, by decide⟩))) ∧
      ∃ r', (empty.after derivedHistory).perform
          (.edit empty.nextId (.setHours .monday (some 5))) = .ok r' ∧
        r'.capacityAt summerId holidayMonday = .ok 5 ∧
        (empty.after derivedHistory).SameOn r' summerId holidayTuesday := by
  obtain ⟨c, hc, hid, hmonday, htuesday⟩ : ∃ c ∈ (empty.after derivedHistory).calendars.rows,
      c.id = empty.nextId ∧ c.RuleDecides .monday holidayMonday ∧
        ¬ holidayTuesday.weekday = .monday := by
    simp only [Calendar.RuleDecides]
    decide +kernel
  obtain ⟨hexception, hrule⟩ := new_rule_effects (Reachable.empty.after derivedHistory) hc
  have hcomes : ∀ d ∈ [holidayMonday, holidayTuesday],
      (empty.after derivedHistory).round (Visit.decide summerId d) () summerId =
        .inr ((), empty.nextId) := by
    decide +kernel
  have hvisits : ∀ d ∈ [holidayMonday, holidayTuesday],
      (empty.after derivedHistory).Visits summerId d empty.nextId :=
    fun d hd => ReflTransGen.single (hcomes d hd)
  rw [hid] at hexception hrule
  constructor
  · obtain ⟨r', hr', -⟩ := Answer.exists_ok_of_any
      (x := (empty.after derivedHistory).perform
        (.edit empty.nextId (.addException (holiday holidayTuesday ⟨3, by decide⟩))))
      (p := fun _ => true) (by decide +kernel)
    exact ⟨r', hr', (hexception _ r' hr').2.1 summerId (by decide)
      (hvisits holidayTuesday (by simp))⟩
  · obtain ⟨r', hr', -⟩ := Answer.exists_ok_of_any
      (x := (empty.after derivedHistory).perform
        (.edit empty.nextId (.setHours .monday (some 5))))
      (p := fun _ => true) (by decide +kernel)
    obtain ⟨hkept, hchanged⟩ := hrule .monday (some 5) r' hr'
    obtain ⟨value, hvalue, -, hgives⟩ :=
      hchanged summerId holidayMonday hmonday (hvisits holidayMonday (by simp))
    obtain rfl : value = 5 := Int.ofNat_inj.mp hgives
    exact ⟨r', hr', hvalue, hkept _ _ fun hseen => htuesday hseen.1.1⟩

/-! ## Exceptions replaced and removed -/

theorem updateException_effect (h : r.WellFormed) (hc : c ∈ r.calendars.rows) {hours : Int}
    {category : Category}
    (hr' : r.perform (.edit c.id (.updateException d hours category)) = .ok r') :
    ((∀ s ∈ c.current.validFrom, s ≤ d) → ∃ kept : Hours, (kept.value : Int) = hours ∧
      r'.AnswersOn c.id d kept.value .ownException (some ⟨d, kept, category⟩)) ∧
    ((∃ s ∈ c.current.validFrom, d < s) → ∀ q, r.SameOn r' q d) := by
  have hwf' : r'.WellFormed := h.perform hr'
  obtain ⟨c', hrun, rfl⟩ := (perform_edit_iff hc).mp hr'
  obtain ⟨kept, hkept, -, rfl⟩ := Calendar.updateException_eq_ok_iff.mp hrun
  refine ⟨?_, sameOn_put_earlier h hc hwf'⟩
  intro hd
  have hdecides := decidesOn_put_current (v := { c.current with
    exceptions := c.current.exceptions.insert ⟨d, kept, category⟩ }) h hc hd
  rw [Version.decision?_insert_self (e := ⟨d, kept, category⟩)] at hdecides
  exact ⟨kept, hkept, answersOn_of_resolve (resolve_of_decided hwf' hdecides)⟩

theorem removeException_effect (h : r.WellFormed) (hc : c ∈ r.calendars.rows)
    (hr' : r.perform (.edit c.id (.removeException d)) = .ok r') :
    ((∀ s ∈ c.current.validFrom, s ≤ d) →
      (∀ c' ∈ r'.calendars.rows, c'.id = c.id → c'.ownExceptionOn? d = none) ∧
        ∃ kind, r'.classify c.id d = .ok kind ∧ kind ≠ .ownException) ∧
    ((∃ s ∈ c.current.validFrom, d < s) →
      (∀ c' ∈ r'.calendars.rows, c'.id = c.id → c'.ownExceptionOn? d = c.ownExceptionOn? d) ∧
        ∀ q, r.SameOn r' q d) := by
  have hwf' : r'.WellFormed := h.perform hr'
  obtain ⟨c', hrun, rfl⟩ := (perform_edit_iff hc).mp hr'
  obtain ⟨⟨e, _⟩, hremove, rfl⟩ := Answer.map_eq_ok_iff.mp hrun
  obtain ⟨-, rfl⟩ := Calendar.removeException_eq_ok_iff.mp hremove
  have hversion := Calendar.versionAt_withCurrent (h.chained c hc)
    { c.current with exceptions := c.current.exceptions.erase d.index } d
  constructor
  · intro hd
    have hgone : { c with current := { c.current with
        exceptions := c.current.exceptions.erase d.index } }.ownExceptionOn? d = none := by
      rw [Calendar.ownExceptionOn?, hversion.1 hd]
      exact Table.find?_erase_self
    have hclass := classify_of_no_own_exception hwf' mem_put_self hgone
    refine ⟨?_, hclass⟩
    intro c' hc' hid
    rw [eq_of_id_eq hc' mem_put_self hid, hgone]
  · intro hd
    refine ⟨?_, sameOn_put_earlier h hc hwf' hd⟩
    intro c' hc' hid
    rw [eq_of_id_eq hc' mem_put_self hid, Calendar.ownExceptionOn?, hversion.2 hd]
    rfl

theorem exception_edits_accepted (hc : c ∈ r.calendars.rows) (d : Date) :
    (∀ hours category,
      (∃ r', r.perform (.edit c.id (.updateException d hours category)) = .ok r') ↔
        (∃ kept : Hours, (kept.value : Int) = hours) ∧
          (c.current.exceptionOn? d).isSome = true) ∧
      ((∃ r', r.perform (.edit c.id (.removeException d)) = .ok r') ↔
        (c.current.exceptionOn? d).isSome = true) := by
  simp only [perform_edit_iff hc, Calendar.Edit.run, Answer.map_eq_ok_iff,
    Calendar.updateException_eq_ok_iff, Option.isSome_iff_exists]
  constructor
  · intro hours category
    constructor
    · rintro ⟨_, _, ⟨kept, hkept, hsome, -⟩, -⟩
      exact ⟨⟨kept, hkept⟩, hsome⟩
    · rintro ⟨⟨kept, hkept⟩, hsome⟩
      exact ⟨_, _, ⟨kept, hkept, hsome, rfl⟩, rfl⟩
  · constructor
    · rintro ⟨_, _, ⟨⟨e, _⟩, hremove, -⟩, -⟩
      exact ⟨e, (Calendar.removeException_eq_ok_iff.mp hremove).1⟩
    · rintro ⟨e, he⟩
      exact ⟨_, _, ⟨_, Calendar.removeException_eq_ok_iff.mpr ⟨he, rfl⟩, rfl⟩, rfl⟩

/-- An exception is replaced or removed as long as the current version has one on the
date.  From the start of this version on, a replaced exception then decides its date
and a removed one is gone; on earlier dates no calendar answers otherwise than before. -/
theorem exception_edits_from_start (h : r.Reachable) (hc : c ∈ r.calendars.rows) (d : Date) :
    ((∀ hours category,
        (∃ r', r.perform (.edit c.id (.updateException d hours category)) = .ok r') ↔
          (∃ kept : Hours, (kept.value : Int) = hours) ∧
            (c.current.exceptionOn? d).isSome = true) ∧
      ((∃ r', r.perform (.edit c.id (.removeException d)) = .ok r') ↔
        (c.current.exceptionOn? d).isSome = true)) ∧
    (∀ hours category r',
      r.perform (.edit c.id (.updateException d hours category)) = .ok r' →
        ((∀ s ∈ c.current.validFrom, s ≤ d) → ∃ kept : Hours, (kept.value : Int) = hours ∧
          r'.AnswersOn c.id d kept.value .ownException (some ⟨d, kept, category⟩)) ∧
        ((∃ s ∈ c.current.validFrom, d < s) → ∀ q, r.SameOn r' q d)) ∧
    ∀ r', r.perform (.edit c.id (.removeException d)) = .ok r' →
      ((∀ s ∈ c.current.validFrom, s ≤ d) →
        (∀ c' ∈ r'.calendars.rows, c'.id = c.id → c'.ownExceptionOn? d = none) ∧
        ∃ kind, r'.classify c.id d = .ok kind ∧ kind ≠ .ownException) ∧
      ((∃ s ∈ c.current.validFrom, d < s) →
        (∀ c' ∈ r'.calendars.rows, c'.id = c.id → c'.ownExceptionOn? d = c.ownExceptionOn? d) ∧
        ∀ q, r.SameOn r' q d) :=
  ⟨exception_edits_accepted hc d,
    fun _ _ _ hr' => updateException_effect h.wellFormed hc hr',
    fun _ hr' => removeException_effect h.wellFormed hc hr'⟩

/-- A holiday of "Standard" that becomes a day of five hours, and is then removed. -/
theorem exception_edits_from_start_holidays :
    ∃ r' r'', (empty.after holidayHistory).perform
        (.edit empty.nextId (.updateException holidayMonday 5 ⟨"Shift", "blue", true⟩)) = .ok r' ∧
      r'.AnswersOn empty.nextId holidayMonday 5 .ownException
        (some ⟨holidayMonday, ⟨5, by decide⟩, ⟨"Shift", "blue", true⟩⟩) ∧
      r'.perform (.edit empty.nextId (.removeException holidayMonday)) = .ok r'' ∧
      ∃ kind, r''.classify empty.nextId holidayMonday = .ok kind ∧ kind ≠ .ownException := by
  obtain ⟨c, hc, hid, hstart⟩ : ∃ c ∈ (empty.after holidayHistory).calendars.rows,
      c.id = empty.nextId ∧ c.current.validFrom = none := by
    decide +kernel
  have hreach : (empty.after holidayHistory).Reachable := Reachable.empty.after holidayHistory
  obtain ⟨r', hupdate, hnext⟩ := Answer.exists_ok_of_any
    (x := (empty.after holidayHistory).perform
      (.edit empty.nextId (.updateException holidayMonday 5 ⟨"Shift", "blue", true⟩)))
    (p := fun r' => (r'.perform (.edit empty.nextId (.removeException holidayMonday))).toOption.any
        fun _ => r'.calendars.rows.any fun c => c.id == empty.nextId && c.current.validFrom == none)
    (by decide +kernel)
  obtain ⟨r'', hremove, hrow⟩ := Answer.exists_ok_of_any hnext
  obtain ⟨c', hc', hrow'⟩ := List.any_eq_true.mp hrow
  simp only [Bool.and_eq_true, beq_iff_eq] at hrow'
  obtain ⟨hid', hstart'⟩ := hrow'
  have hreach' : r'.Reachable := hreach.perform hupdate
  refine ⟨r', r'', hupdate, ?_, hremove, ?_⟩
  · rw [← hid] at hupdate
    obtain ⟨kept, hkept, hanswers⟩ :=
      ((exception_edits_from_start hreach hc holidayMonday).2.1 5 _ r' hupdate).1 (by simp [hstart])
    obtain ⟨value, hlt⟩ := kept
    obtain rfl : value = 5 := Int.ofNat_inj.mp hkept
    exact hid ▸ hanswers
  · rw [← hid'] at hremove
    obtain ⟨-, hclass⟩ :=
      ((exception_edits_from_start hreach' hc' holidayMonday).2.2 r'' hremove).1 (by simp [hstart'])
    exact hid' ▸ hclass

/-- `holidayHistory` and a second version of "Standard", which has the holidays of the
first one that are before it. -/
abbrev supersededHistory : List Operation :=
  holidayHistory ++ [.edit empty.nextId (.newVersion ⟨3652510, by decide⟩)]

/-- Such a holiday is replaced and removed without an error, and each time the date
keeps the exception that it had, of no hours. -/
theorem superseded_exception_kept :
    (∃ r', (empty.after supersededHistory).perform
        (.edit empty.nextId (.updateException holidayMonday 4 ⟨"Shift", "blue", true⟩)) = .ok r' ∧
      r'.AnswersOn empty.nextId holidayMonday 0 .ownException
        (some (holiday holidayMonday ⟨0, by decide⟩))) ∧
      ∃ r', (empty.after supersededHistory).perform
          (.edit empty.nextId (.removeException holidayMonday)) = .ok r' ∧
        r'.classify empty.nextId holidayMonday = .ok .ownException ∧
        ∃ c ∈ r'.calendars.rows, c.id = empty.nextId ∧
          c.ownExceptionOn? holidayMonday = some (holiday holidayMonday ⟨0, by decide⟩) := by
  constructor
  · obtain ⟨r', hupdate, htest⟩ := Answer.exists_ok_of_any
      (x := (empty.after supersededHistory).perform
        (.edit empty.nextId (.updateException holidayMonday 4 ⟨"Shift", "blue", true⟩)))
      (p := fun r' => r'.resolve empty.nextId holidayMonday ==
        .ok (.own (holiday holidayMonday ⟨0, by decide⟩)))
      (by decide +kernel)
    exact ⟨r', hupdate, answersOn_of_resolve (beq_iff_eq.mp htest)⟩
  · obtain ⟨r', hremove, htest⟩ := Answer.exists_ok_of_any
      (x := (empty.after supersededHistory).perform
        (.edit empty.nextId (.removeException holidayMonday)))
      (p := fun r' => decide (r'.classify empty.nextId holidayMonday = .ok .ownException ∧
        ∃ c ∈ r'.calendars.rows, c.id = empty.nextId ∧
          c.ownExceptionOn? holidayMonday = some (holiday holidayMonday ⟨0, by decide⟩)))
      (by decide +kernel)
    exact ⟨r', hremove, of_decide_eq_true htest⟩

end Registry

end WorkingTime
