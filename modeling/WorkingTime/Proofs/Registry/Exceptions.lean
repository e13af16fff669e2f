/-
The exceptions of a calendar, and what its other answers have to do with them.

Two questions are about exceptions.  The exception of a date is looked for along
the versions in effect on that date, up to the first exception or weekday rule;
all exceptions are put together from the tables of current versions, each of
which hides the ones below on its weekdays with rules.  Before the start of a
current version the search goes along a superseded one, of which the list knows
nothing, so only on dates on which current versions are in effect can the two be
compared; there both stop at the same version.  Main statements:

  * `answers_tell_one_story`: hours, kind and exception of a date fit each other;
  * `exceptions_agree`: where current versions are in effect, the exceptions that
    are put together are those that are found date by date.
-/
import WorkingTime.Proofs.Registry.Walk

namespace WorkingTime

open Relation (ReflTransGen)

/-! ## Versions along a lineage -/

namespace Version

variable {v : Version} {vs rest : List Version} {d : Date} {e : ExceptionDay}

theorem exceptionOn?_eq_none_iff :
    v.exceptionOn? d = none ↔ ∀ e ∈ v.exceptions.rows, e.date ≠ d := by
  simp only [Option.eq_none_iff_forall_ne_some, ne_eq, exceptionOn?_eq_some_iff, not_and]

theorem mem_effectiveExceptions_cons :
    e ∈ (effectiveExceptions (v :: rest)).rows ↔
      e ∈ v.exceptions.rows ∨
        (e ∈ (effectiveExceptions rest).rows ∧ (v.week.get e.date.weekday).isInherited = true) ∧
          v.exceptionOn? e.date = none := by
  rw [effectiveExceptions, Table.mem_overlay, Table.mem_filter, exceptionOn?_eq_none_iff]
  refine or_congr_right (and_congr_right fun _ => forall₂_congr fun a _ => ?_)
  rw [ne_eq, ne_eq, eq_comm, Date.ext_iff]
  rfl

/-- On one date, the exceptions in effect are what the search on that date
finds: both stop at the first version with an exception or a rule. -/
theorem mem_effectiveExceptions_iff :
    e ∈ (effectiveExceptions vs).rows ∧ e.date = d ↔ (resolve d vs).exception? = some e := by
  induction vs with
  | nil => simp [effectiveExceptions, Table.empty, resolve, Resolution.exception?]
  | cons v rest ih =>
      cases he : v.exceptionOn? d with
      | some own =>
          rw [resolve_of_exception he, mem_effectiveExceptions_cons]
          constructor
          · rintro ⟨hmem | ⟨-, hnone⟩, rfl⟩
            · exact he.symm.trans (exceptionOn?_eq_some_iff.mpr ⟨hmem, rfl⟩)
            · rw [he] at hnone
              cases hnone
          · rintro ⟨⟩
            obtain ⟨hmem, hdate⟩ := exceptionOn?_eq_some_iff.mp he
            exact ⟨.inl hmem, hdate⟩
      | none =>
          have hbelow : e ∈ (effectiveExceptions (v :: rest)).rows ∧ e.date = d ↔
              (v.week.get d.weekday).isInherited = true ∧
                (resolve d rest).exception? = some e := by
            rw [← ih, mem_effectiveExceptions_cons]
            constructor
            · rintro ⟨hmem | ⟨⟨hmem, hrule⟩, -⟩, rfl⟩
              · exact absurd rfl (exceptionOn?_eq_none_iff.mp he e hmem)
              · exact ⟨hrule, hmem, rfl⟩
            · rintro ⟨hrule, hmem, rfl⟩
              exact ⟨.inr ⟨⟨hmem, hrule⟩, he⟩, rfl⟩
          rw [hbelow]
          cases hw : v.week.get d.weekday with
          | fixed hours =>
              rw [resolve_of_fixed he hw]
              simp [DayRule.isInherited, Resolution.exception?]
          | inherited =>
              rw [resolve_of_inherited he hw, Resolution.exception?_passedDown]
              simp [DayRule.isInherited]

theorem resolve_eq_own_iff : resolve d (v :: rest) = .own e ↔ v.exceptionOn? d = some e := by
  cases he : v.exceptionOn? d with
  | some own => simp [resolve_of_exception he]
  | none =>
      cases hw : v.week.get d.weekday with
      | fixed hours => simp [resolve_of_fixed he hw]
      | inherited =>
          rw [resolve_of_inherited he hw]
          cases resolve d rest <;> simp [Resolution.passedDown]

end Version

/-! ## Answers that fit each other -/

/-- The answers for a date fit each other: the exception that the calendar has
itself, the exception in effect, the hours and the kind. -/
structure OneStory (d : Date) (own exception : Option ExceptionDay) (hours : Nat)
    (kind : DayType) : Prop where
  own_first : ∀ e ∈ own, exception = some e
  exception_hours : ∀ e ∈ exception, e.date = d ∧ hours = e.hours.value
  ownException_iff : kind = .ownException ↔ own.isSome = true
  ancestorException_iff : kind = .ancestorException ↔ own = none ∧ exception.isSome = true
  zeroHours_iff : kind = .zeroHours ↔ exception = none ∧ hours = 0
  normal_iff : kind = .normal ↔ exception = none ∧ 0 < hours

/-- A decision tells one story when it rests on an own exception exactly if
there is one, and on exceptions of that date only. -/
theorem Resolution.oneStory {d : Date} {x : Resolution} {own : Option ExceptionDay}
    (hown : ∀ e, x = .own e ↔ own = some e) (hdate : ∀ e ∈ x.exception?, e.date = d) :
    OneStory d own x.exception? x.hours x.dayType := by
  have hnone : (∀ e, x ≠ .own e) → own = none := by
    intro hx
    exact Option.eq_none_iff_forall_ne_some.mpr fun e he => hx e ((hown e).mpr he)
  cases x with
  | own e =>
      obtain rfl := (hown e).mp rfl
      have hd : e.date = d := hdate e rfl
      constructor <;> simp [exception?, hours, dayType, hd]
  | ancestral e =>
      obtain rfl := hnone fun _ => nofun
      have hd : e.date = d := hdate e rfl
      constructor <;> simp [exception?, hours, dayType, hd]
  | weekly h =>
      obtain rfl := hnone fun _ => nofun
      by_cases hzero : h.value = 0 <;>
        constructor <;> simp [exception?, hours, dayType, hzero, Nat.pos_iff_ne_zero]
  | undecided =>
      obtain rfl := hnone fun _ => nofun
      constructor <;> simp [exception?, hours, dayType]

namespace Registry

variable {r : Registry} {c : Calendar} {d : Date}

/-! ## The answers for one date -/

theorem exceptionDay_of_versionsAlong (h : r.WellFormed) {id : CalendarId} {vs : List Version}
    (hvs : r.versionsAlong (·.versionAt d) id = .ok vs) :
    r.exceptionDay id d = .ok (Version.resolve d vs).exception? ∧
      r.exceptionDayWalk id d = .some (.ok (Version.resolve d vs).exception?) := by
  have hresolve : r.resolve id d = .ok _ := congrArg (Version.resolve d <$> ·) hvs
  have hanswer : r.exceptionDay id d = .ok _ := congrArg (Resolution.exception? <$> ·) hresolve
  exact ⟨hanswer, (ends_exceptionDayWalk h id d).ends.trans (congrArg Part.some hanswer)⟩

/-- The hours, the kind and the exception of a date, as they are answered and as
the loops that follow parents come to them, tell one story. -/
theorem answers_tell_one_story (h : r.Reachable) (hc : c ∈ r.calendars.rows) (d : Date) :
    ∃ hours kind exception,
      (r.capacityAt c.id d = .ok hours ∧ r.capacityWalk c.id d = .some (.ok hours)) ∧
      (r.classify c.id d = .ok kind ∧ r.classifyWalk c.id d = .some (.ok kind)) ∧
      (r.exceptionDay c.id d = .ok exception ∧
        r.exceptionDayWalk c.id d = .some (.ok exception)) ∧
      OneStory d (c.ownExceptionOn? d) exception hours kind := by
  have hwf := h.wellFormed
  obtain ⟨rest, hvs, -, -⟩ := versionsAlong_cons hwf (fun c => c.versionAt_mem_versions d) hc
  have hresolve : r.resolve c.id d = .ok _ := congrArg (Version.resolve d <$> ·) hvs
  have hcapacity : r.capacityAt c.id d = .ok _ := congrArg (Resolution.hours <$> ·) hresolve
  have hclass : r.classify c.id d = .ok _ := congrArg (Resolution.dayType <$> ·) hresolve
  have hwalk := ends_resolveWalk hwf c.id d
  refine ⟨_, _, _, ⟨hcapacity, (hwalk.map _).ends.trans (congrArg Part.some hcapacity)⟩,
    ⟨hclass, (hwalk.map _).ends.trans (congrArg Part.some hclass)⟩,
    exceptionDay_of_versionsAlong hwf hvs, ?_⟩
  -- the calendar's own exception is the one of the first version
  refine Resolution.oneStory (fun e => Version.resolve_eq_own_iff) ?_
  intro e he
  exact (Version.mem_effectiveExceptions_iff.mpr he).2

/-- A Monday after `summerStart`. -/
abbrev holidayMonday : Date := ⟨3652432, by decide⟩

/-- The Tuesday of the same week. -/
abbrev holidayTuesday : Date := ⟨3652433, by decide⟩

/-- An exception with these hours. -/
def holiday (d : Date) (hours : Hours) : ExceptionDay :=
  ⟨d, hours, ⟨"Holiday", "red", false⟩⟩

/-- `derivedHistory` with holidays: "Standard" has two without hours, and "Summer"
has a rule for Mondays and an exception of its own on the Wednesday. -/
abbrev holidayHistory : List Operation :=
  derivedHistory ++
    [.edit empty.nextId (.addException (holiday holidayMonday ⟨0, by decide⟩)),
     .edit empty.nextId (.addException (holiday holidayTuesday ⟨0, by decide⟩)),
     .edit summerId (.setHours .monday (some 6)),
     .edit summerId (.addException (holiday ⟨3652434, by decide⟩ ⟨4, by decide⟩))]

/-- On the Tuesday "Summer" has the exception of "Standard", of no hours, and not
a date without hours by a rule. -/
theorem answers_tell_one_story_holidays :
    (empty.after holidayHistory).capacityWalk summerId holidayTuesday = .some (.ok 0) ∧
      (empty.after holidayHistory).classifyWalk summerId holidayTuesday =
        .some (.ok .ancestorException) := by
  obtain ⟨c, hc, hid, hown⟩ : ∃ c ∈ (empty.after holidayHistory).calendars.rows,
      c.id = summerId ∧ c.ownExceptionOn? holidayTuesday = none := by
    decide +kernel
  obtain ⟨hours, kind, exception, ⟨-, hcapacity⟩, ⟨-, hkind⟩, ⟨hexception, -⟩, hstory⟩ :=
    answers_tell_one_story (Reachable.empty.after holidayHistory) hc holidayTuesday
  rw [hid] at hcapacity hkind hexception
  have hfound : (empty.after holidayHistory).exceptionDay summerId holidayTuesday =
      .ok (some (holiday holidayTuesday ⟨0, by decide⟩)) := by
    decide +kernel
  obtain rfl := Except.ok.inj (hexception.symm.trans hfound)
  obtain rfl := (hstory.exception_hours _ rfl).2
  obtain rfl := hstory.ancestorException_iff.mpr ⟨hown, rfl⟩
  exact ⟨hcapacity, hkind⟩

/-! ## All dates -/

/-- On this date every calendar on the way up from this one by the parents of
current versions has its current version in effect. -/
def CurrentOn (r : Registry) (id : CalendarId) (d : Date) : Prop :=
  ∀ c ∈ r.calendars.rows, ReflTransGen (r.ChosenParent (·.current)) id c.id →
    c.current.contains d = true

theorem versionsAlong_of_currentOn (h : r.WellFormed) {id : CalendarId}
    (hcurrent : r.CurrentOn id d) :
    r.versionsAlong (·.versionAt d) id = r.versionsAlong (·.current) id := by
  refine versionsAlong_congr h h Calendar.current_mem_versions
    (fun c => c.versionAt_mem_versions d) id ?_
  rintro _ hpath v
  refine exists_congr fun c => and_congr_right fun hc => and_congr_right ?_
  rintro rfl
  rw [Calendar.versionAt_eq_current (h.chained c hc) (hcurrent c hc hpath)]

/-- The exceptions of a calendar are a list without two on one date, in the order
of their dates; and on a date on which the current versions are in effect, an
exception is in the list exactly when it is the exception of that date. -/
theorem exceptions_agree (h : r.Reachable) (hc : c ∈ r.calendars.rows) :
    ∃ es, (r.exceptions c.id = .ok es ∧ r.exceptionsWalk c.id = .some (.ok es)) ∧
      es.Pairwise (·.date < ·.date) ∧
      ∀ d, r.CurrentOn c.id d → ∃ exception,
        (r.exceptionDay c.id d = .ok exception ∧
          r.exceptionDayWalk c.id d = .some (.ok exception)) ∧
        ∀ e, e ∈ es ∧ e.date = d ↔ exception = some e := by
  have hwf := h.wellFormed
  obtain ⟨rest, hvs, -, -⟩ := versionsAlong_cons hwf Calendar.current_mem_versions hc
  have hexceptions : r.exceptions c.id = .ok _ :=
    congrArg ((fun vs => (Version.effectiveExceptions vs).rows) <$> ·) hvs
  refine ⟨_, ⟨hexceptions, (ends_exceptionsWalk hwf c.id).ends.trans
    (congrArg Part.some hexceptions)⟩, (Version.effectiveExceptions _).ascending, ?_⟩
  intro d hcurrent
  have hvs' := (versionsAlong_of_currentOn hwf hcurrent).trans hvs
  refine ⟨_, exceptionDay_of_versionsAlong hwf hvs', ?_⟩
  intro e
  exact Version.mem_effectiveExceptions_iff

/-- The exceptions of "Summer" are the one on the Tuesday and its own; the rule for
Mondays hides the other. -/
theorem exceptions_agree_holidays :
    ∃ es, (empty.after holidayHistory).exceptionsWalk summerId = .some (.ok es) ∧
      es.map (·.date.index) = [3652433, 3652434] ∧
      (empty.after holidayHistory).exceptionDayWalk summerId holidayMonday =
        .some (.ok none) ∧
      (empty.after holidayHistory).exceptionDayWalk summerId holidayTuesday =
        .some (.ok (some (holiday holidayTuesday ⟨0, by decide⟩))) := by
  obtain ⟨c, hc, hid⟩ : ∃ c ∈ (empty.after holidayHistory).calendars.rows, c.id = summerId := by
    decide +kernel
  have hcurrent : ∀ k ∈ (empty.after holidayHistory).calendars.rows,
      k.current.contains holidayMonday = true ∧ k.current.contains holidayTuesday = true := by
    decide +kernel
  obtain ⟨es, ⟨hes, hwalk⟩, -, hagree⟩ :=
    exceptions_agree (Reachable.empty.after holidayHistory) hc
  obtain ⟨monday, ⟨-, hmonday⟩, hiff⟩ := hagree holidayMonday fun k hk _ => (hcurrent k hk).1
  obtain ⟨tuesday, ⟨-, htuesday⟩, hiff'⟩ := hagree holidayTuesday fun k hk _ => (hcurrent k hk).2
  rw [hid] at hes hwalk hmonday htuesday
  have hlist : (empty.after holidayHistory).exceptions summerId =
      .ok [holiday holidayTuesday ⟨0, by decide⟩, holiday ⟨3652434, by decide⟩ ⟨4, by decide⟩] := by
    decide +kernel
  obtain rfl := Except.ok.inj (hes.symm.trans hlist)
  obtain rfl : monday = none := by
    refine Option.eq_none_iff_forall_ne_some.mpr ?_
    intro e he
    obtain ⟨hmem, hdate⟩ := (hiff e).mpr he
    simp only [List.mem_cons, List.not_mem_nil, or_false] at hmem
    rcases hmem with rfl | rfl <;> exact absurd hdate (by decide)
  obtain rfl := (hiff' (holiday holidayTuesday ⟨0, by decide⟩)).mp ⟨.head _, rfl⟩
  exact ⟨_, hwalk, rfl, hmonday, htuesday⟩

end Registry

end WorkingTime
