/-
Questions as loops without a bound.

A question follows parents by a loop that looks at one calendar at a time and
stops when a calendar answers; nothing in it counts steps or remembers where it
has been.  `walk` is that loop for any question, undefined when it never stops,
and the questions differ in what they do at a calendar.  In a well-formed
registry a walk does what a function of the versions along the lineage says
(`walk_eq`), so it stops, and finds no ancestor missing (`walks_end`).
-/
import Mathlib.Data.PFun
import WorkingTime.Capacity
import WorkingTime.Proofs.Registry.Lineage
import WorkingTime.Proofs.Registry.Reachable

namespace WorkingTime

open Relation (ReflTransGen TransGen)

/-! ## The loop -/

/-- What a walk does at a calendar: it answers, or goes on to a parent with
what it knows by then. -/
inductive Visit (σ α : Type) where
  | answer (a : α)
  | onward (state : σ) (parent : CalendarId)

/-- One round of the loop: it stops with an answer or an error, or gives the
state and the calendar of the next round. -/
def Registry.round {σ α : Type} (r : Registry)
    (visit : σ → CalendarId → Calendar → Visit σ α) (state : σ) (id : CalendarId) :
    Except RegistryError α ⊕ σ × CalendarId :=
  match r.get id with
  | .error e => .inl (.error e)
  | .ok c =>
      match visit state id c with
      | .answer a => .inl (.ok a)
      | .onward state parent => .inr (state, parent)

/-- Rounds from a calendar on, until one stops; undefined when none does. -/
def Registry.walk {σ α : Type} (r : Registry)
    (visit : σ → CalendarId → Calendar → Visit σ α) (state : σ) (id : CalendarId) :
    Part (Except RegistryError α) :=
  PFun.fix (PFun.lift fun x => r.round visit x.1 x.2) (state, id)

/-! ## What the questions do at a calendar -/

namespace Visit

/-- Deciding a date, when the walk began at `origin`: an exception is the
calendar's own when the walk has not moved. -/
def decide (origin : CalendarId) (d : Date) (_ : Unit) (current : CalendarId) (c : Calendar) :
    Visit Unit Resolution :=
  match (c.versionAt d).exceptionOn? d with
  | some e => .answer (if current = origin then .own e else .ancestral e)
  | none =>
      match (c.versionAt d).week.get d.weekday, (c.versionAt d).parent with
      | .fixed h, _ => .answer (.weekly h)
      | .inherited, some p => .onward () p
      | .inherited, none => .answer .undecided

/-- Looking for the exception in effect on a date; a weekday rule ends the
search. -/
def findException (d : Date) (_ : Unit) (_ : CalendarId) (c : Calendar) :
    Visit Unit (Option ExceptionDay) :=
  match (c.versionAt d).exceptionOn? d with
  | some e => .answer (some e)
  | none =>
      match (c.versionAt d).week.get d.weekday, (c.versionAt d).parent with
      | .inherited, some p => .onward () p
      | _, _ => .answer none

/-- Asking the current rule of a weekday whether it gives no hours. -/
def askWeekday (w : Weekday) (_ : Unit) (_ : CalendarId) (c : Calendar) : Visit Unit Bool :=
  match c.current.week.get w, c.current.parent with
  | .fixed h, _ => .answer (h.value == 0)
  | .inherited, some p => .onward () p
  | .inherited, none => .answer true

/-- The weekdays for which a version has rules. -/
def ruledWeekdays (v : Version) : List Weekday :=
  Weekday.all.filter fun w => !(v.week.get w).isInherited

/-- Collecting exceptions, those of nearer calendars first, together with the
weekdays on which rules of nearer calendars hide the ones to come. -/
def collect (state : Table ExceptionDay × List Weekday) (_ : CalendarId) (c : Calendar) :
    Visit (Table ExceptionDay × List Weekday) (List ExceptionDay) :=
  let merged := c.current.exceptions.rows.foldl
    (fun merged e => if state.2.contains e.date.weekday then merged
      else if merged.contains e.date.index then merged
      else merged.insert e) state.1
  match c.current.parent with
  | some p => .onward (merged, state.2 ++ ruledWeekdays c.current) p
  | none => .answer merged.rows

end Visit

/-! ## What versions along a lineage decide -/

namespace Version

variable {v : Version} {rest : List Version} {d : Date}

theorem resolve_of_exception {e : ExceptionDay} (h : v.exceptionOn? d = some e) :
    resolve d (v :: rest) = .own e := by
  simp [resolve, decision?, h]

theorem resolve_of_fixed {hours : Hours} (h : v.exceptionOn? d = none)
    (hrule : v.week.get d.weekday = .fixed hours) : resolve d (v :: rest) = .weekly hours := by
  simp [resolve, decision?, h, hrule, DayRule.hours?]

theorem resolve_of_inherited (h : v.exceptionOn? d = none)
    (hrule : v.week.get d.weekday = .inherited) :
    resolve d (v :: rest) = (resolve d rest).passedDown := by
  simp [resolve, decision?, h, hrule, DayRule.hours?]

end Version

namespace Resolution

@[simp] theorem passedDown_passedDown (x : Resolution) :
    x.passedDown.passedDown = x.passedDown := by
  cases x <;> rfl

@[simp] theorem exception?_passedDown (x : Resolution) :
    x.passedDown.exception? = x.exception? := by
  cases x <;> rfl

end Resolution

namespace Registry

/-! ## The questions as loops -/

section Questions

variable (r : Registry) (id : CalendarId)

def resolveWalk (d : Date) : Part (Except RegistryError Resolution) :=
  r.walk (Visit.decide id d) () id

def capacityWalk (d : Date) : Part (Except RegistryError Nat) :=
  (Resolution.hours <$> ·) <$> r.resolveWalk id d

def classifyWalk (d : Date) : Part (Except RegistryError DayType) :=
  (Resolution.dayType <$> ·) <$> r.resolveWalk id d

def exceptionDayWalk (d : Date) : Part (Except RegistryError (Option ExceptionDay)) :=
  r.walk (Visit.findException d) () id

def zeroHoursWalk (w : Weekday) : Part (Except RegistryError Bool) :=
  r.walk (Visit.askWeekday w) () id

/-- One walk for each of these weekdays, up to the first that has hours. -/
def zeroHoursWalks : List Weekday → Part (Except RegistryError Bool)
  | [] => pure (.ok true)
  | w :: rest => do
      match ← r.zeroHoursWalk id w with
      | .ok true => zeroHoursWalks rest
      | other => pure other

def exceptionsWalk : Part (Except RegistryError (List ExceptionDay)) :=
  r.walk Visit.collect (.empty, []) id

end Questions

/-! ## A walk and a lineage -/

variable {r : Registry} {pick : Calendar → Version} {σ α : Type}

/-- The visit of a calendar fits a function of the versions along its lineage,
`v` and then those of its parent: it answers with the value of that function
whatever comes after `v`, or leaves the value to the parent. -/
def Fits (answer : σ → CalendarId → List Version → α) (state : σ) (c : Calendar) (v : Version) :
    Visit σ α → Prop
  | .answer a => ∀ rest, (v.parent = none → rest = []) → answer state c.id (v :: rest) = a
  | .onward state' p => v.parent = some p ∧
      ∀ rest, answer state c.id (v :: rest) = answer state' p rest

section Rounds

variable {visit : σ → CalendarId → Calendar → Visit σ α} {state : σ}

theorem walk_of_stop {id : CalendarId} {answer : Except RegistryError α}
    (h : r.round visit state id = .inl answer) : r.walk visit state id = .some answer := by
  have hround : Sum.inl answer ∈ Part.some (r.round visit state id) :=
    Part.mem_some_iff.mpr h.symm
  exact Part.eq_some_iff.mpr (PFun.fix_stop hround)

theorem walk_of_onward {c : Calendar} (hc : c ∈ r.calendars.rows) {state' : σ} {p : CalendarId}
    (h : visit state c.id c = .onward state' p) :
    r.walk visit state c.id = r.walk visit state' p := by
  have hround : Sum.inr (state', p) ∈ Part.some (r.round visit state c.id) := by
    simp [round, get_id hc, h]
  exact PFun.fix_fwd_eq hround

theorem walk_of_answer {c : Calendar} (hc : c ∈ r.calendars.rows) {a : α}
    (h : visit state c.id c = .answer a) : r.walk visit state c.id = .some (.ok a) := by
  refine walk_of_stop ?_
  simp only [round, get_id hc, h]

theorem walk_of_missing {id : CalendarId} (h : ∀ c ∈ r.calendars.rows, c.id ≠ id) :
    r.walk visit state id = .some (.error (.unknownId id)) := by
  refine walk_of_stop ?_
  rw [round, get_eq_error h]

end Rounds

/-- A walk whose visits fit a function of the versions along the lineage
computes it. -/
theorem walk_eq (h : r.WellFormed) (hpick : ∀ c, pick c ∈ c.versions)
    {visit : σ → CalendarId → Calendar → Visit σ α}
    {answer : σ → CalendarId → List Version → α} {origin : CalendarId}
    (hvisit : ∀ state, ∀ c ∈ r.calendars.rows, ReflTransGen r.HasParent origin c.id →
      Fits answer state c (pick c) (visit state c.id c)) (state : σ) :
    r.walk visit state origin = .some (answer state origin <$> r.versionsAlong pick origin) := by
  suffices ∀ id, ReflTransGen r.HasParent origin id → ∀ state,
      r.walk visit state id = .some (answer state id <$> r.versionsAlong pick id) from
    this origin .refl state
  intro id
  induction id using h.parent_induction with
  | hstep id ih =>
      intro hpath state
      by_cases hid : ∃ c ∈ r.calendars.rows, c.id = id
      · obtain ⟨c, hc, rfl⟩ := hid
        obtain ⟨rest, hrest, hend, hparent⟩ := versionsAlong_cons h hpick hc
        have hfits := hvisit state c hc hpath
        cases hv : visit state c.id c with
        | answer a =>
            rw [hv] at hfits
            rw [walk_of_answer hc hv, hrest]
            exact congrArg (Part.some ∘ Except.ok) (hfits rest hend).symm
        | onward state' p =>
            rw [hv] at hfits
            have hedge := hasParent_of_pick hpick hc hfits.1
            rw [walk_of_onward hc hv, ih p hedge (hpath.tail hedge) state', hparent p hfits.1,
              hrest]
            exact congrArg (Part.some ∘ Except.ok) (hfits.2 rest).symm
      · have hmissing : ∀ c ∈ r.calendars.rows, c.id ≠ id := by
          intro c hc heq
          exact hid ⟨c, hc, heq⟩
        rw [walk_of_missing hmissing, versionsAlong_of_missing hmissing]
        rfl

/-! ## Each question -/

/-- A walk that has moved is not where it began, so an exception it finds is an
ancestor's. -/
theorem fits_decide (h : r.WellFormed) {origin : CalendarId} {d : Date} {c : Calendar}
    (hc : c ∈ r.calendars.rows) (hpath : ReflTransGen r.HasParent origin c.id) :
    Fits (fun _ current vs => if current = origin then Version.resolve d vs
        else (Version.resolve d vs).passedDown)
      () c (c.versionAt d) (Visit.decide origin d () c.id c) := by
  rw [Visit.decide]
  cases he : (c.versionAt d).exceptionOn? d with
  | some e =>
      intro rest _
      simp only [Version.resolve_of_exception he]
      rfl
  | none =>
      cases hw : (c.versionAt d).week.get d.weekday with
      | fixed hours =>
          intro rest _
          simp only [Version.resolve_of_fixed he hw]
          exact ite_self _
      | inherited =>
          cases hp : (c.versionAt d).parent with
          | none =>
              intro rest hend
              obtain rfl := hend hp
              simp only [Version.resolve_of_inherited he hw]
              exact ite_self _
          | some p =>
              have hedge : r.HasParent c.id p :=
                hasParent_of_pick (fun c => c.versionAt_mem_versions d) hc hp
              have hne : p ≠ origin := by
                rintro rfl
                exact h.acyclic p (.tail' hpath hedge)
              refine ⟨hp, ?_⟩
              intro rest
              simp only [Version.resolve_of_inherited he hw, Resolution.passedDown_passedDown,
                if_neg hne, ite_self]

theorem fits_findException {d : Date} {c : Calendar} :
    Fits (fun _ _ vs => (Version.resolve d vs).exception?) () c (c.versionAt d)
      (Visit.findException d () c.id c) := by
  rw [Visit.findException]
  cases he : (c.versionAt d).exceptionOn? d with
  | some e =>
      intro rest _
      simp only [Version.resolve_of_exception he]
      rfl
  | none =>
      cases hw : (c.versionAt d).week.get d.weekday with
      | fixed hours =>
          intro rest _
          simp only [Version.resolve_of_fixed he hw]
          rfl
      | inherited =>
          cases hp : (c.versionAt d).parent with
          | none =>
              intro rest hend
              obtain rfl := hend hp
              simp only [Version.resolve_of_inherited he hw]
              rfl
          | some p =>
              refine ⟨hp, ?_⟩
              intro rest
              simp only [Version.resolve_of_inherited he hw, Resolution.exception?_passedDown]

theorem fits_askWeekday {w : Weekday} {c : Calendar} :
    Fits (fun _ _ vs => Version.weekdayHours w vs == 0) () c c.current
      (Visit.askWeekday w () c.id c) := by
  rw [Visit.askWeekday]
  cases hw : c.current.week.get w with
  | fixed hours =>
      intro rest _
      simp only [Version.weekdayHours, hw]
  | inherited =>
      cases hp : c.current.parent with
      | none =>
          intro rest hend
          obtain rfl := hend hp
          simp only [Version.weekdayHours, hw]
          rfl
      | some p =>
          refine ⟨hp, ?_⟩
          intro rest
          simp only [Version.weekdayHours, hw]

theorem mem_ruledWeekdays {v : Version} {w : Weekday} :
    w ∈ Visit.ruledWeekdays v ↔ (v.week.get w).isInherited = false := by
  have hall : w ∈ Weekday.all := by cases w <;> decide
  simp [Visit.ruledWeekdays, hall]

/-- Collecting from the nearest calendar on, with rules that hide what comes
after, merges as overlaying from the farthest one does. -/
theorem fits_collect {state : Table ExceptionDay × List Weekday} {c : Calendar} :
    Fits (fun (merged, hidden) _ vs => (merged.overlay ((Version.effectiveExceptions vs).filter
        fun e => !hidden.contains e.date.weekday)).rows) state c c.current
      (Visit.collect state c.id c) := by
  obtain ⟨merged, hidden⟩ := state
  have hkey : ∀ a b : ExceptionDay, Keyed.key a = Keyed.key b →
      (!hidden.contains a.date.weekday) = !hidden.contains b.date.weekday := by
    intro a b hab
    rw [show a.date = b.date from Date.ext hab]
  have hmerge := Table.foldl_insert_fresh (p := fun e => hidden.contains e.date.weekday)
    c.current.exceptions merged
  rw [Visit.collect]
  cases hp : c.current.parent with
  | none =>
      intro rest hend
      obtain rfl := hend hp
      have halone : Version.effectiveExceptions [c.current] = c.current.exceptions :=
        Table.overlay_empty _
      simp only [halone]
      exact congrArg Table.rows hmerge.symm
  | some p =>
      refine ⟨hp, ?_⟩
      intro rest
      refine congrArg Table.rows ?_
      -- from the parent on, the weekdays with a rule here are hidden as well
      have hhidden : (fun e : ExceptionDay => !hidden.contains e.date.weekday &&
            (c.current.week.get e.date.weekday).isInherited) =
          fun e => !(hidden ++ Visit.ruledWeekdays c.current).contains e.date.weekday := by
        funext e
        rw [Bool.eq_iff_iff]
        simp [mem_ruledWeekdays]
      let inherited := Version.effectiveExceptions rest
      calc merged.overlay ((Version.effectiveExceptions (c.current :: rest)).filter
            fun e => !hidden.contains e.date.weekday)
          = merged.overlay ((c.current.exceptions.filter _).overlay
              ((inherited.filter _).filter fun e => !hidden.contains e.date.weekday)) :=
            congrArg merged.overlay (Table.filter_overlay hkey _ _)
        _ = (merged.overlay (c.current.exceptions.filter
              fun e => !hidden.contains e.date.weekday)).overlay (inherited.filter _) := by
            rw [Table.filter_filter, ← Table.overlay_assoc, hhidden]
        _ = _ := congrArg (Table.overlay · _) hmerge.symm

/-! ## All walks end -/

/-- A walk from a calendar ends with this answer, which is a value when the
calendar is there, and otherwise reports this calendar and no other. -/
structure Ends (r : Registry) (id : CalendarId) {α : Type}
    (walk : Part (Except RegistryError α)) (answer : Except RegistryError α) : Prop where
  ends : walk = .some answer
  value_of_mem : (∃ c ∈ r.calendars.rows, c.id = id) → ∃ a, answer = .ok a
  unknown_of_missing : (∀ c ∈ r.calendars.rows, c.id ≠ id) → answer = .error (.unknownId id)

theorem Ends.map {id : CalendarId} {β : Type} {walk : Part (Except RegistryError α)}
    {answer : Except RegistryError α} (h : Ends r id walk answer) (f : α → β) :
    Ends r id ((f <$> ·) <$> walk) (f <$> answer) where
  ends := by
    rw [h.ends]
    exact Part.map_some _ _
  value_of_mem hid := by
    obtain ⟨a, ha⟩ := h.value_of_mem hid
    exact ⟨f a, Answer.map_eq_ok_iff.mpr ⟨a, ha, rfl⟩⟩
  unknown_of_missing hid := by
    rw [h.unknown_of_missing hid]
    rfl

theorem ends_walk (h : r.WellFormed) (hpick : ∀ c, pick c ∈ c.versions) (id : CalendarId)
    {visit : σ → CalendarId → Calendar → Visit σ α}
    {answer : σ → CalendarId → List Version → α}
    (hvisit : ∀ state, ∀ c ∈ r.calendars.rows, ReflTransGen r.HasParent id c.id →
      Fits answer state c (pick c) (visit state c.id c)) (state : σ) :
    Ends r id (r.walk visit state id) (answer state id <$> r.versionsAlong pick id) where
  ends := walk_eq h hpick hvisit state
  value_of_mem := by
    rintro ⟨c, hc, rfl⟩
    obtain ⟨rest, hrest, -, -⟩ := versionsAlong_cons h hpick hc
    exact ⟨_, Answer.map_eq_ok_iff.mpr ⟨_, hrest, rfl⟩⟩
  unknown_of_missing hid := by
    rw [versionsAlong_of_missing hid]
    rfl

section

variable (h : r.WellFormed) (id : CalendarId)

include h

theorem ends_resolveWalk (d : Date) : Ends r id (r.resolveWalk id d) (r.resolve id d) := by
  have hends := ends_walk h (fun c => c.versionAt_mem_versions d) id
    (fun _ c hc hpath => fits_decide h hc hpath) ()
  simp only [if_pos] at hends
  exact hends

theorem ends_exceptionDayWalk (d : Date) :
    Ends r id (r.exceptionDayWalk id d) (r.exceptionDay id d) := by
  have hends := ends_walk h (fun c => c.versionAt_mem_versions d) id
    (fun _ _ _ _ => fits_findException) ()
  rw [exceptionDay, resolve, Functor.map_map]
  exact hends

theorem ends_zeroHoursWalk (w : Weekday) :
    Ends r id (r.zeroHoursWalk id w) (r.zeroHoursOn id w) :=
  ends_walk h Calendar.current_mem_versions id (fun _ _ _ _ => fits_askWeekday) ()

theorem ends_zeroHoursWalks {ws : List Weekday} (hne : ws ≠ []) :
    Ends r id (r.zeroHoursWalks id ws) (ws.allM (r.zeroHoursOn id)) := by
  induction ws with
  | nil => exact absurd rfl hne
  | cons w ws ih =>
      have hw := ends_zeroHoursWalk h id w
      rw [zeroHoursWalks, hw.ends, Part.bind_eq_bind, Part.bind_some, List.allM]
      -- a value for the first weekday means that the calendar is there
      have hvalue : ∀ {b b' : Bool}, r.zeroHoursOn id w = .ok b →
          Ends r id (.some (.ok b')) (.ok b') := by
        intro b b' hb
        refine ⟨rfl, fun _ => ⟨_, rfl⟩, ?_⟩
        intro hid
        simp [hw.unknown_of_missing hid] at hb
      cases hanswer : r.zeroHoursOn id w with
      | error e =>
          rw [hanswer] at hw
          exact ⟨rfl, hw.value_of_mem, hw.unknown_of_missing⟩
      | ok zero =>
          cases zero with
          | false => exact hvalue hanswer
          | true =>
              cases ws with
              | nil => exact hvalue hanswer
              | cons w' ws => exact ih (List.cons_ne_nil w' ws)

theorem ends_exceptionsWalk : Ends r id (r.exceptionsWalk id) (r.exceptions id) := by
  have hends := ends_walk h Calendar.current_mem_versions id
    (fun _ _ _ _ => fits_collect) (.empty, [])
  simp only [Table.empty_overlay, List.contains_nil, Bool.not_false, Table.filter_true] at hends
  exact hends

end

/-- Every walk of a reachable registry ends, with the answer that the question
has; a calendar that is there gets a value, and of one that is not, its own id
is reported. -/
theorem walks_end (h : r.Reachable) (id : CalendarId) (d : Date) (w : Weekday) :
    Ends r id (r.capacityWalk id d) (r.capacityAt id d) ∧
      Ends r id (r.classifyWalk id d) (r.classify id d) ∧
      Ends r id (r.exceptionDayWalk id d) (r.exceptionDay id d) ∧
      Ends r id (r.exceptionsWalk id) (r.exceptions id) ∧
      Ends r id (r.zeroHoursWalk id w) (r.zeroHoursOn id w) ∧
      Ends r id (r.zeroHoursWalks id Weekday.all) (r.onlyZeroHours id) := by
  have hwf := h.wellFormed
  have hresolve := ends_resolveWalk hwf id d
  exact ⟨hresolve.map _, hresolve.map _, ends_exceptionDayWalk hwf id d,
    ends_exceptionsWalk hwf id, ends_zeroHoursWalk hwf id w,
    ends_zeroHoursWalks hwf id (List.cons_ne_nil _ _)⟩

theorem walks_end_derived :
    (∃ hours, (empty.after derivedHistory).capacityWalk ⟨3, by decide⟩ ⟨0, by decide⟩ =
        .some (.ok hours)) ∧
      (empty.after derivedHistory).capacityWalk ⟨9, by decide⟩ ⟨0, by decide⟩ =
        .some (.error (.unknownId ⟨9, by decide⟩)) := by
  have hwalks := walks_end (Reachable.empty.after derivedHistory)
  have hthere := (hwalks ⟨3, by decide⟩ ⟨0, by decide⟩ .monday).1
  have hmissing := (hwalks ⟨9, by decide⟩ ⟨0, by decide⟩ .monday).1
  constructor
  · obtain ⟨hours, hanswer⟩ := hthere.value_of_mem (by decide +kernel)
    exact ⟨hours, hthere.ends.trans (congrArg Part.some hanswer)⟩
  · exact hmissing.ends.trans (congrArg Part.some (hmissing.unknown_of_missing (by decide +kernel)))

end Registry

end WorkingTime
