/-
When two calendars have the same answers, in one registry or in two.

`SameAnswers r a r' b` puts together what can be asked about a calendar: its
hours, kinds of dates and exceptions on every date, its sums, its effective
exceptions and its weekdays without hours.  All of this is answered from the
rules of the versions along a lineage; bounds, names and ids serve to find those
versions and say nothing themselves.  So a calendar has the answers of another
one when the calendars of the one lineage have counterparts in the other
registry, with the same rules and with parents that are counterparts again
(`sameAnswers_of_counterparts`).
-/
import WorkingTime.Proofs.Capacity

namespace WorkingTime

open Relation (ReflTransGen)

/-! ## Counterparts -/

namespace Version

/-- Another version has the same weekday rules and the same exceptions, and its
parent is the counterpart of the parent. -/
structure Counterpart (f : CalendarId → CalendarId) (v v' : Version) : Prop where
  week : v'.week = v.week
  exceptions : v'.exceptions = v.exceptions
  parent : v'.parent = v.parent.map f

variable {f : CalendarId → CalendarId} {vs vs' : List Version}

theorem resolve_of_counterparts (h : List.Forall₂ (Counterpart f) vs vs') (d : Date) :
    resolve d vs' = resolve d vs := by
  induction h with
  | nil => rfl
  | cons hv _ ih => simp only [resolve, decision?, exceptionOn?, hv.week, hv.exceptions, ih]

theorem weekdayHours_congr (h : List.Forall₂ (fun v v' => v'.week = v.week) vs vs') (w : Weekday) :
    weekdayHours w vs' = weekdayHours w vs := by
  induction h with
  | nil => rfl
  | cons hv _ ih => simp only [weekdayHours, hv, ih]

theorem effectiveExceptions_of_counterparts (h : List.Forall₂ (Counterpart f) vs vs') :
    effectiveExceptions vs' = effectiveExceptions vs := by
  induction h with
  | nil => rfl
  | cons hv _ ih => simp only [effectiveExceptions, hv.week, hv.exceptions, ih]

end Version

/-- The versions of another calendar that are chosen, current or by date, are
the counterparts of those that are chosen here. -/
structure Calendar.Counterpart (f : CalendarId → CalendarId) (c c' : Calendar) : Prop where
  id_eq : c'.id = f c.id
  current : c.current.Counterpart f c'.current
  versionAt : ∀ d, (c.versionAt d).Counterpart f (c'.versionAt d)

theorem Version.counterpart_self (v : Version) : v.Counterpart (fun k => k) v where
  week := rfl
  exceptions := rfl
  parent := Option.map_id'.symm

theorem Calendar.counterpart_self (c : Calendar) : c.Counterpart (fun k => k) c where
  id_eq := rfl
  current := c.current.counterpart_self
  versionAt d := (c.versionAt d).counterpart_self

namespace Registry

/-! ## The same answers -/

/-- The calendar `b` of `r'` has the hours and the exceptions that the calendar
`a` of `r` has. -/
structure SameHours (r : Registry) (a : CalendarId) (r' : Registry) (b : CalendarId) : Prop where
  capacityAt : ∀ d, r'.capacityAt b d = r.capacityAt a d
  exceptionDay : ∀ d, r'.exceptionDay b d = r.exceptionDay a d
  exceptions : r'.exceptions b = r.exceptions a
  zeroHoursOn : ∀ w, r'.zeroHoursOn b w = r.zeroHoursOn a w
  workableHours : ∀ start finish, r'.workableHours b start finish = r.workableHours a start finish
  nonWorkableDays : ∀ start finish,
    r'.nonWorkableDays b start finish = r.nonWorkableDays a start finish

/-- The calendar `b` of `r'` has all the answers that the calendar `a` of `r`
has. -/
structure SameAnswers (r : Registry) (a : CalendarId) (r' : Registry) (b : CalendarId) : Prop
    extends SameHours r a r' b where
  classify : ∀ d, r'.classify b d = r.classify a d

variable {r r' : Registry} {a b : CalendarId}

theorem sameHours_of_dates (hcapacity : ∀ d, r'.capacityAt b d = r.capacityAt a d)
    (hexception : ∀ d, r'.exceptionDay b d = r.exceptionDay a d)
    (hexceptions : r'.exceptions b = r.exceptions a)
    (hzero : ∀ w, r'.zeroHoursOn b w = r.zeroHoursOn a w) : SameHours r a r' b where
  capacityAt := hcapacity
  exceptionDay := hexception
  exceptions := hexceptions
  zeroHoursOn := hzero
  workableHours start finish := by
    rw [Registry.workableHours, Registry.workableHours, funext hcapacity]
  nonWorkableDays start finish := by
    rw [Registry.nonWorkableDays, Registry.nonWorkableDays, funext hcapacity]

theorem weekHours_congr
    (h : ∀ start finish, r'.workableHours b start finish = r.workableHours a start finish)
    (d : Date) : r'.weekHours b d = r.weekHours a d := by
  rw [weekHours, weekHours, funext₂ h]

theorem onlyZeroHours_congr (h : ∀ w, r'.zeroHoursOn b w = r.zeroHoursOn a w) :
    r'.onlyZeroHours b = r.onlyZeroHours a := by
  rw [onlyZeroHours, onlyZeroHours, funext h]

/-! ## The same answers from alike versions -/

section Along

variable {f : CalendarId → CalendarId} {vs vs' : List Version}

theorem resolve_eq_of_counterparts {d : Date} (hvs : r.versionsAlong (·.versionAt d) a = .ok vs)
    (hvs' : r'.versionsAlong (·.versionAt d) b = .ok vs')
    (hall : List.Forall₂ (Version.Counterpart f) vs vs') : r'.resolve b d = r.resolve a d := by
  rw [resolve, resolve, hvs, hvs']
  exact congrArg Except.ok (Version.resolve_of_counterparts hall d)

variable (hvs : r.versionsAlong (·.current) a = .ok vs)
  (hvs' : r'.versionsAlong (·.current) b = .ok vs')

include hvs hvs'

theorem exceptions_eq_of_counterparts (hall : List.Forall₂ (Version.Counterpart f) vs vs') :
    r'.exceptions b = r.exceptions a := by
  rw [exceptions, exceptions, hvs, hvs']
  exact congrArg (fun t => Except.ok t.rows) (Version.effectiveExceptions_of_counterparts hall)

theorem zeroHoursOn_eq_of_weeks (hall : List.Forall₂ (fun v v' => v'.week = v.week) vs vs')
    (w : Weekday) : r'.zeroHoursOn b w = r.zeroHoursOn a w := by
  rw [zeroHoursOn, zeroHoursOn, hvs, hvs']
  exact congrArg (fun n => Except.ok (n == 0)) (Version.weekdayHours_congr hall w)

end Along

/-! ## Lineages with counterparts -/

section Lineages

variable {f : CalendarId → CalendarId} {pick : Calendar → Version} {q : Calendar}

/-- Where the calendars of a lineage are related to others, and parents go with the
relation, the lineage is. -/
theorem versionsAlong_related {R : Version → Version → Prop}
    (hR : ∀ v v', R v v' → v'.parent = v.parent.map f) (h : r.WellFormed) (h' : r'.WellFormed)
    (hpick : ∀ c, pick c ∈ c.versions) (hq : q ∈ r.calendars.rows)
    (hrelated : ∀ c ∈ r.calendars.rows, ReflTransGen r.HasParent q.id c.id →
      ∃ c' ∈ r'.calendars.rows, c'.id = f c.id ∧ R (pick c) (pick c')) :
    ∃ vs vs', r.versionsAlong pick q.id = .ok vs ∧ r'.versionsAlong pick (f q.id) = .ok vs' ∧
      List.Forall₂ R vs vs' := by
  suffices ∀ id, ReflTransGen r.HasParent q.id id → ∀ c ∈ r.calendars.rows, c.id = id →
      ∃ vs vs', r.versionsAlong pick c.id = .ok vs ∧ r'.versionsAlong pick (f c.id) = .ok vs' ∧
        List.Forall₂ R vs vs' from this q.id .refl q hq rfl
  intro id
  induction id using h.parent_induction with
  | hstep id ih =>
      rintro hpath c hc rfl
      obtain ⟨c', hc', hid, hv⟩ := hrelated c hc hpath
      obtain ⟨rest, hrest, hend, hparent⟩ := versionsAlong_cons h hpick hc
      obtain ⟨rest', hrest', hend', hparent'⟩ := versionsAlong_cons h' hpick hc'
      rw [hid] at hrest'
      refine ⟨_, _, hrest, hrest', .cons hv ?_⟩
      cases hp : (pick c).parent with
      | none =>
          have hp' : (pick c').parent = none := by rw [hR _ _ hv, hp, Option.map_none]
          rw [hend hp, hend' hp']
          exact .nil
      | some p =>
          have hp' : (pick c').parent = some (f p) := by rw [hR _ _ hv, hp, Option.map_some]
          have hedge := hasParent_of_pick hpick hc hp
          obtain ⟨k, hk, rfl⟩ := h.closed c.id p hedge
          obtain ⟨vs, vs', hvs, hvs', hall⟩ := ih k.id hedge (hpath.tail hedge) k hk rfl
          obtain rfl : vs = rest := Except.ok.inj (hvs.symm.trans (hparent _ hp))
          obtain rfl : vs' = rest' := Except.ok.inj (hvs'.symm.trans (hparent' _ hp'))
          exact hall

/-- A calendar has the answers of another one when its ancestors, itself
included, have counterparts. -/
theorem sameAnswers_of_counterparts (h : r.WellFormed) (h' : r'.WellFormed)
    (hq : q ∈ r.calendars.rows)
    (hcounterpart : ∀ c ∈ r.calendars.rows, ReflTransGen r.HasParent q.id c.id →
      ∃ c' ∈ r'.calendars.rows, c.Counterpart f c') : SameAnswers r q.id r' (f q.id) := by
  have hresolve : ∀ d, r'.resolve (f q.id) d = r.resolve q.id d := by
    intro d
    obtain ⟨vs, vs', hvs, hvs', hall⟩ := versionsAlong_related (R := Version.Counterpart f)
      (fun _ _ hv => hv.parent) h h' (fun c => c.versionAt_mem_versions d) hq fun c hc hpath => by
        obtain ⟨c', hc', hmatch⟩ := hcounterpart c hc hpath
        exact ⟨c', hc', hmatch.id_eq, hmatch.versionAt d⟩
    exact resolve_eq_of_counterparts hvs hvs' hall
  obtain ⟨vs, vs', hvs, hvs', hall⟩ := versionsAlong_related (R := Version.Counterpart f)
    (fun _ _ hv => hv.parent) h h' Calendar.current_mem_versions hq fun c hc hpath => by
      obtain ⟨c', hc', hmatch⟩ := hcounterpart c hc hpath
      exact ⟨c', hc', hmatch.id_eq, hmatch.current⟩
  refine ⟨sameHours_of_dates ?_ ?_ ?_ ?_, ?_⟩
  · intro d
    rw [capacityAt, capacityAt, hresolve]
  · intro d
    rw [exceptionDay, exceptionDay, hresolve]
  · exact exceptions_eq_of_counterparts hvs hvs' hall
  · exact zeroHoursOn_eq_of_weeks hvs hvs' (hall.imp fun _ _ hv => hv.week)
  · intro d
    rw [classify, classify, hresolve]

end Lineages

end Registry

end WorkingTime
