/-
Copied calendars.

A copy has one version, at all times, with the rules of the current version of its
source, and so the source's current parent as its only parent.  Where that version is in
effect, source and copy go on to the same parent from the same rules, as they do when
current versions are asked (`copied_of_mem`); an exception of the source's own is one of
the copy's own.  Before the start of that version the source is answered from its
superseded versions, and the copy still from the rules it has (`answeredBy_versionAt`);
nothing leads from the copy to the source (`not_path_of_parents`).
-/
import WorkingTime.Proofs.Registry.Exceptions
import WorkingTime.Proofs.Registry.Unaffected
import WorkingTime.Proofs.Registry.Visited

namespace WorkingTime

open Relation (ReflTransGen TransGen)

/-! ## The same rules at other times -/

namespace Version

variable {v v' : Version}

theorem counterpart_unbounded (v : Version) : v.Counterpart (fun k => k) v.unbounded where
  week := rfl
  exceptions := rfl
  parent := Option.map_id'.symm

theorem forall₂_counterpart_cons (h : v.Counterpart (fun k => k) v') (rest : List Version) :
    List.Forall₂ (Counterpart fun k => k) (v :: rest) (v' :: rest) :=
  .cons h (List.forall₂_same.mpr fun v _ => v.counterpart_self)

end Version

namespace Registry

variable {r r' : Registry} {c c' : Calendar} {k : CalendarId} {d : Date}

/-! ## Answers from the rules of one version -/

/-- For this date a calendar is answered by the rules of a version: by its exception,
else by its weekday rule, else as its parent is, and without a parent there are no
hours. -/
def AnsweredBy (r : Registry) (k : CalendarId) (v : Version) (d : Date) : Prop :=
  match v.exceptionOn? d, v.week.get d.weekday, v.parent with
  | some e, _, _ => r.AnswersOn k d e.hours.value .ownException (some e)
  | none, .fixed h, _ => r.AnswersOn k d h.value (if h.value = 0 then .zeroHours else .normal) none
  | none, .inherited, some p =>
      ∃ hours kind e, r.AnswersOn p d hours kind e ∧ r.AnswersOn k d hours kind.passedDown e
  | none, .inherited, none => r.AnswersOn k d 0 .zeroHours none

theorem answeredBy_versionAt (h : r.WellFormed) (hc : c ∈ r.calendars.rows) (d : Date) :
    r.AnsweredBy c.id (c.versionAt d) d := by
  have hanswers := answersOn_of_resolve (resolve_eq_decisionOn h hc d)
  rw [decisionOn_eq h hc d, Version.decision?] at hanswers
  rw [AnsweredBy]
  cases he : (c.versionAt d).exceptionOn? d with
  | some e =>
      rw [he] at hanswers
      exact hanswers
  | none =>
      cases hw : (c.versionAt d).week.get d.weekday with
      | fixed hours =>
          rw [he, hw] at hanswers
          exact hanswers
      | inherited =>
          cases hp : (c.versionAt d).parent with
          | none =>
              rw [he, hw, hp] at hanswers
              exact hanswers
          | some p =>
              rw [he, hw, hp] at hanswers
              have hedge := hasParent_of_pick (fun c => c.versionAt_mem_versions d) hc hp
              obtain ⟨k, hk, rfl⟩ := h.closed c.id p hedge
              have habove := answersOn_of_resolve (resolve_eq_decisionOn h hk d)
              exact ⟨_, _, _, habove, by simpa [DayRule.hours?] using hanswers⟩

/-! ## Two calendars with the same parent -/

/-- Calendars whose chosen versions have the same parent have the same versions above
them. -/
theorem versionsAlong_of_parent_eq {pick : Calendar → Version} (h : r.WellFormed)
    (hpick : ∀ c, pick c ∈ c.versions) (hc : c ∈ r.calendars.rows) (hc' : c' ∈ r.calendars.rows)
    (hparent : (pick c').parent = (pick c).parent) :
    ∃ rest, r.versionsAlong pick c.id = .ok (pick c :: rest) ∧
      r.versionsAlong pick c'.id = .ok (pick c' :: rest) := by
  obtain ⟨rest, hrest, hend, hnext⟩ := versionsAlong_cons h hpick hc
  obtain ⟨rest', hrest', hend', hnext'⟩ := versionsAlong_cons h hpick hc'
  refine ⟨rest, hrest, ?_⟩
  cases hp : (pick c).parent with
  | none => rw [hrest', hend hp, hend' (hparent.trans hp)]
  | some p =>
      obtain rfl := Except.ok.inj ((hnext p hp).symm.trans (hnext' p (hparent.trans hp)))
      exact hrest'

theorem not_path_of_parents (h : r.WellFormed) (hc : c ∈ r.calendars.rows)
    (hc' : c' ∈ r.calendars.rows) (hne : c'.id ≠ c.id)
    (hparents : ∀ p ∈ c'.parents, p ∈ c.parents) : ¬ ReflTransGen r.HasParent c'.id c.id := by
  intro hpath
  rcases hpath.cases_head with heq | ⟨p, ⟨x, hx, hid, hp⟩, hback⟩
  · exact hne heq
  · obtain rfl := eq_of_id_eq hx hc' hid
    exact h.acyclic c.id (.head' ⟨c, hc, rfl, hparents p hp⟩ hback)

/-! ## Copies -/

/-- The calendar `k` has the rules of the current version of `c`, at all times: it is
answered by them on every date, from a lineage without `c` in it, and has the answers
of `c` where these come from the current version. -/
structure Copied (r : Registry) (c : Calendar) (k : CalendarId) : Prop where
  versions : ∃ copy ∈ r.calendars.rows, copy.id = k ∧
    copy.versions = [{ c.current with validFrom := none, expires := none }]
  in_effect : ∀ d, c.current.contains d = true → ∃ hours kind exception,
    r.AnswersOn c.id d hours kind exception ∧ r.AnswersOn k d hours kind exception
  exceptions : ∃ es, r.exceptions c.id = .ok es ∧ r.exceptions k = .ok es
  zeroHoursOn : ∀ w, ∃ zero, r.zeroHoursOn c.id w = .ok zero ∧ r.zeroHoursOn k w = .ok zero
  answered : ∀ d, r.AnsweredBy k c.current d
  apart : ¬ ReflTransGen r.HasParent k c.id

theorem copied_of_mem (h : r.WellFormed) (hc : c ∈ r.calendars.rows) {name : String}
    (hk : Calendar.single k name c.current ∈ r.calendars.rows) (hne : k ≠ c.id) :
    r.Copied c k := by
  have hrules := c.current.counterpart_unbounded
  obtain ⟨rest, hrest, hrest'⟩ :=
    versionsAlong_of_parent_eq h Calendar.current_mem_versions hc hk rfl
  have hall := Version.forall₂_counterpart_cons hrules rest
  refine ⟨⟨_, hk, rfl, rfl⟩, ?_, ?_, ?_, fun d => answeredBy_versionAt h hk d, ?_⟩
  · intro d hd
    have hversion := Calendar.versionAt_eq_current (h.chained c hc) hd
    obtain ⟨above, habove, habove'⟩ := versionsAlong_of_parent_eq h
      (fun c => c.versionAt_mem_versions d) hc hk (congrArg (·.parent) hversion.symm)
    rw [hversion] at habove
    have hresolve : r.resolve c.id d = .ok _ := congrArg (Version.resolve d <$> ·) habove
    have hsame := resolve_eq_of_counterparts habove habove'
      (Version.forall₂_counterpart_cons hrules above)
    exact ⟨_, _, _, answersOn_of_resolve hresolve, answersOn_of_resolve (hsame.trans hresolve)⟩
  · have hexceptions : r.exceptions c.id = .ok _ :=
      congrArg ((fun vs => (Version.effectiveExceptions vs).rows) <$> ·) hrest
    exact ⟨_, hexceptions, (exceptions_eq_of_counterparts hrest hrest' hall).trans hexceptions⟩
  · intro w
    have hzero : r.zeroHoursOn c.id w = .ok _ :=
      congrArg ((Version.weekdayHours w · == 0) <$> ·) hrest
    have hweeks := hall.imp fun _ _ hv => hv.week
    exact ⟨_, hzero, (zeroHoursOn_eq_of_weeks hrest hrest' hweeks w).trans hzero⟩
  · refine not_path_of_parents h hc hk hne ?_
    intro p hp
    exact Calendar.mem_parents.mpr ⟨c.current, c.current_mem_versions, mem_parents_single.mp hp⟩

/-- A copy has an id of its own and the rules of the current version of its source at
all times.  It has the answers of the source on every date on which that version is in
effect, and where current versions are asked; on all dates, those before the start of
that version included, it is answered by that version's rules and by parents that do not
lead to the source.  The calendars that were there, the source among them, are there as
they were, with all their answers. -/
theorem copy_answers (h : r.Reachable) {source : CalendarId} {name : String}
    (hcopy : r.copy source name = .ok (k, r')) :
    (∃ c ∈ r.calendars.rows, c.id = source ∧ r'.Copied c k) ∧
    ∀ q ∈ r.calendars.rows, q.id ≠ k ∧ q ∈ r'.calendars.rows ∧ SameAnswers r q.id r' q.id ∧
      (∀ d, r'.weekHours q.id d = r.weekHours q.id d) ∧
      r'.onlyZeroHours q.id = r.onlyZeroHours q.id := by
  have hwf := h.wellFormed
  have hperform : r.perform (.copy source name) = .ok r' :=
    Answer.map_eq_ok_iff.mpr ⟨_, hcopy, rfl⟩
  have hwf' : r'.WellFormed := hwf.perform hperform
  obtain ⟨c, hget, hadd⟩ := Answer.bind_eq_ok_iff.mp hcopy
  obtain ⟨hc, hid⟩ := get_eq_ok_iff.mp hget
  obtain ⟨hframe, -⟩ := frame_of_add hadd
  obtain ⟨text, next, -, -, -, rfl, rfl⟩ := of_add hadd
  have hkept : ∀ q ∈ r.calendars.rows, q.id ≠ r.nextId ∧
      q ∈ (r.calendars.insert (.single r.nextId text c.current)).rows := by
    intro q hq
    have hne := hwf.ne_nextId hq
    exact ⟨hne, (hframe.others q hne).mpr hq⟩
  constructor
  · obtain ⟨hne, hc'⟩ := hkept c hc
    exact ⟨c, hc, hid, copied_of_mem hwf' hc' (Table.mem_insert.mpr (.inl rfl)) hne.symm⟩
  · intro q hq
    obtain ⟨hne, hq'⟩ := hkept q hq
    have hsame := sameAnswers_of_frame hwf hwf' hframe hq (not_path_nextId hwf hq)
    exact ⟨hne, hq', hsame, weekHours_congr hsame.workableHours,
      onlyZeroHours_congr hsame.zeroHoursOn⟩

/-- A Monday before the current version of "Summer". -/
abbrev earlierMonday : Date := ⟨3652418, by decide⟩

/-- "Summer" has the hours of "Standard" on Mondays before its current version, and a copy
of it has those of that version there; the holiday that they have later is an exception
of each. -/
theorem copy_answers_summer :
    ∃ r', (empty.after holidayHistory).copy summerId "Autumn" = .ok (⟨4, by decide⟩, r') ∧
      r'.capacityAt summerId earlierMonday = .ok 8 ∧
      r'.AnswersOn ⟨4, by decide⟩ earlierMonday 6 .normal none ∧
      ∃ kind exception, r'.AnswersOn summerId ⟨3652434, by decide⟩ 4 kind exception ∧
        r'.AnswersOn ⟨4, by decide⟩ ⟨3652434, by decide⟩ 4 kind exception := by
  obtain ⟨⟨k, r'⟩, hcopy, hk⟩ := Answer.exists_ok_of_any
    (x := (empty.after holidayHistory).copy summerId "Autumn") (p := fun x => x.1.value == 4)
    (by decide +kernel)
  obtain rfl : k = ⟨4, by decide⟩ := CalendarId.ext (beq_iff_eq.mp hk)
  obtain ⟨⟨c, hc, hid, hcopied⟩, hkept⟩ :=
    copy_answers (Reachable.empty.after holidayHistory) hcopy
  obtain ⟨-, -, hsame, -, -⟩ := hkept c hc
  have hrules : ∀ c ∈ (empty.after holidayHistory).calendars.rows, c.id = summerId →
      c.current.exceptionOn? earlierMonday = none ∧
        c.current.week.get earlierMonday.weekday = .fixed ⟨6, by decide⟩ ∧
          c.current.contains ⟨3652434, by decide⟩ = true := by
    decide +kernel
  have hhours : (empty.after holidayHistory).capacityAt summerId earlierMonday = .ok 8 ∧
      (empty.after holidayHistory).capacityAt summerId ⟨3652434, by decide⟩ = .ok 4 := by
    decide +kernel
  obtain ⟨hnone, hsix, hin⟩ := hrules c hc hid
  have hearlier := hcopied.answered earlierMonday
  rw [AnsweredBy, hnone, hsix] at hearlier
  obtain ⟨hours, kind, exception, hsource, hanswers⟩ := hcopied.in_effect _ hin
  rw [hid] at hsame hsource
  obtain rfl : 4 = hours := Except.ok.inj
    (hhours.2.symm.trans ((hsame.capacityAt _).symm.trans hsource.capacityAt))
  exact ⟨r', hcopy, (hsame.capacityAt _).trans hhours.1, hearlier, kind, exception, hsource,
    hanswers⟩

end Registry

end WorkingTime
