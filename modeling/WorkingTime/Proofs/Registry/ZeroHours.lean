/-
Weekdays without hours, and dates without hours.

The question about a weekday goes up along current versions and knows neither dates
nor exceptions; the question about a date goes up along the versions in effect and
stops at exceptions.  Where current versions are in effect and no exception decides,
both stop at the same calendar with the same rule (`Version.hours_resolve`).  The first
question reads the week and the parent of current versions and nothing else, so what
leaves these as they are leaves its answers (`zeroHoursOn_put`), for one edit and for any
number of them (`zeroHoursOn_after`).
-/
import WorkingTime.Proofs.Calendar.Rules
import WorkingTime.Proofs.Registry.Agreement
import WorkingTime.Proofs.Registry.Exceptions
import WorkingTime.Proofs.Registry.History

namespace WorkingTime

/-! ## Versions -/

namespace Version

variable {vs : List Version} {d : Date}

/-- The hours of a date for which no exception decides are those of its weekday. -/
theorem hours_resolve (h : (resolve d vs).exception? = none) :
    (resolve d vs).hours = weekdayHours d.weekday vs := by
  induction vs with
  | nil => rfl
  | cons v rest ih =>
      cases he : v.exceptionOn? d with
      | some e =>
          rw [resolve_of_exception he] at h
          cases h
      | none =>
          cases hw : v.week.get d.weekday with
          | fixed hours =>
              simp only [resolve_of_fixed he hw, weekdayHours, hw]
              rfl
          | inherited =>
              rw [resolve_of_inherited he hw, Resolution.exception?_passedDown] at h
              simp only [resolve_of_inherited he hw, Resolution.hours_passedDown, ih h,
                weekdayHours, hw]

/-- Another version has the same weekday rules and the same parent. -/
structure SameWeek (v v' : Version) : Prop where
  week : v'.week = v.week
  parent : v'.parent = v.parent

theorem sameWeek_of_toRules {v v' : Version} (h : v'.toRules = v.toRules) : v.SameWeek v' where
  week := congrArg Rules.week h
  parent := congrArg Rules.parent h

end Version

/-! ## Edits of exceptions and of bounds -/

namespace Calendar

/-- Whether an edit is about exceptions or bounds, and not about weekdays. -/
def Edit.keepsWeek : Edit → Bool
  | addException _ | removeException _ | updateException .. => true
  | newVersion _ | setExpires .. | setValidFrom .. => true
  | setHours .. | setInherited _ | setHoursPerDay _ => false

variable {c c' : Calendar}

theorem BoundaryMoved.toRules_current {i : Nat} {d : Date} (h : c.BoundaryMoved i d c') :
    c'.current.toRules = c.current.toRules := by
  have hlast := congrArg List.getLast? h.rules
  simpa [versions] using hlast

theorem Edit.sameWeek_of_run {e : Edit} (he : e.keepsWeek = true) (h : e.run c = .ok c') :
    c.current.SameWeek c'.current := by
  cases e with
  | addException e =>
      obtain ⟨-, -, rfl⟩ := addException_eq_ok_iff.mp h
      exact ⟨rfl, rfl⟩
  | removeException d =>
      obtain ⟨⟨e, _⟩, hremove, rfl⟩ := Answer.map_eq_ok_iff.mp h
      obtain ⟨-, rfl⟩ := removeException_eq_ok_iff.mp hremove
      exact ⟨rfl, rfl⟩
  | updateException d hours category =>
      obtain ⟨_, -, -, rfl⟩ := updateException_eq_ok_iff.mp h
      exact ⟨rfl, rfl⟩
  | newVersion start =>
      obtain ⟨-, rfl⟩ := newVersion_eq_ok_iff.mp h
      exact ⟨rfl, rfl⟩
  | setExpires d reference =>
      exact Version.sameWeek_of_toRules (boundaryMoved_of_setExpires h).toRules_current
  | setValidFrom d reference =>
      obtain ⟨_, -, hmoved⟩ := boundaryMoved_of_setValidFrom h
      exact Version.sameWeek_of_toRules hmoved.toRules_current
  | setHours _ _ | setInherited _ | setHoursPerDay _ => cases he

end Calendar

def Command.keepsWeek : Command → Bool
  | addException .. | removeException .. | updateException .. => true
  | newVersion .. | setExpiringDate .. | setValidFrom .. => true
  | _ => false

/-- Whether an operation edits exceptions or bounds of calendars, and does nothing else. -/
def Operation.keepsWeek : Operation → Bool
  | edit _ e => e.keepsWeek
  | apply command => command.keepsWeek
  | applyAll commands => commands.all (·.keepsWeek)
  | _ => false

open Relation (ReflTransGen)

namespace Registry

variable {r r' : Registry} {c c' : Calendar}

theorem edit_of_operation {command : Command} {op : Operation} (hweek : command.keepsWeek = true)
    (h : command.operation r = .ok op) : ∃ id e, op = .edit id e ∧ e.keepsWeek = true := by
  cases command with
  | addException calendar date hours category =>
      simp only [Command.operation, Answer.bind_eq_ok_iff, Answer.pure_eq_ok_iff] at h
      obtain ⟨id, -, e, -, rfl⟩ := h
      exact ⟨id, _, rfl, rfl⟩
  | removeException _ _ | updateException _ _ _ _ | newVersion _ _ | setExpiringDate _ _ _
  | setValidFrom _ _ _ =>
      obtain ⟨id, -, rfl⟩ := Answer.map_eq_ok_iff.mp h
      exact ⟨id, _, rfl, rfl⟩
  | _ => cases hweek

/-! ## What the question about a weekday reads -/

/-- A calendar with the same week and the same parent in its current version can be put
in place of one, and no question about a weekday is answered otherwise. -/
theorem zeroHoursOn_put (h : r.WellFormed) (h' : (r.put c').WellFormed)
    (hc : c ∈ r.calendars.rows) (hid : c'.id = c.id) (hweek : c.current.SameWeek c'.current)
    (id : CalendarId) (w : Weekday) : (r.put c').zeroHoursOn id w = r.zeroHoursOn id w := by
  by_cases hthere : ∃ q ∈ r.calendars.rows, q.id = id
  · obtain ⟨q, hq, rfl⟩ := hthere
    obtain ⟨vs, vs', hvs, hvs', hall⟩ := versionsAlong_related (R := Version.SameWeek)
      (f := fun k => k) (fun _ _ hv => hv.parent.trans Option.map_id'.symm) h h'
      Calendar.current_mem_versions hq fun k hk _ => by
        by_cases hkc : k.id = c.id
        · obtain rfl : k = c := eq_of_id_eq hk hc hkc
          exact ⟨c', mem_put.mpr (.inl rfl), hid, hweek⟩
        · exact ⟨k, mem_put.mpr (.inr ⟨hk, hid.symm ▸ hkc⟩), rfl, rfl, rfl⟩
    exact zeroHoursOn_eq_of_weeks hvs hvs' (hall.imp fun _ _ hv => hv.week) w
  · have hmissing : ∀ q ∈ r.calendars.rows, q.id ≠ id := fun q hq heq => hthere ⟨q, hq, heq⟩
    have hmissing' : ∀ q ∈ (r.put c').calendars.rows, q.id ≠ id := fun q hq heq =>
      hthere ((exists_id_put hc hid).mp ⟨q, hq, heq⟩)
    rw [zeroHoursOn, zeroHoursOn, versionsAlong_of_missing hmissing,
      versionsAlong_of_missing hmissing']

/-! ## Operations that do not touch it -/

theorem zeroHoursOn_of_edit (h : r.WellFormed) {id : CalendarId} {e : Calendar.Edit}
    (he : e.keepsWeek = true) (hr' : r.perform (.edit id e) = .ok r') (k : CalendarId)
    (w : Weekday) : r'.zeroHoursOn k w = r.zeroHoursOn k w := by
  have hwf' : r'.WellFormed := h.perform hr'
  obtain ⟨c, hc, rfl, c', hrun, rfl⟩ := of_edit hr'
  exact zeroHoursOn_put h hwf' hc (Calendar.Edit.edited_of_run hrun).id_eq
    (Calendar.Edit.sameWeek_of_run he hrun) k w

theorem zeroHoursOn_of_apply (h : r.WellFormed) {command : Command} {action : Action}
    (hweek : command.keepsWeek = true) (happly : r.apply command = .ok (r', action))
    (k : CalendarId) (w : Weekday) : r'.zeroHoursOn k w = r.zeroHoursOn k w := by
  obtain ⟨op, hop, hperform⟩ := operation_of_apply happly
  obtain ⟨id, e, rfl, he⟩ := edit_of_operation hweek hop
  exact zeroHoursOn_of_edit h he hperform k w

theorem zeroHoursOn_of_applyAll (h : r.WellFormed) {commands : List Command}
    {actions : List Action} (hweek : commands.all (·.keepsWeek) = true)
    (happly : r.applyAll commands = .ok (r', actions)) (k : CalendarId) (w : Weekday) :
    r'.zeroHoursOn k w = r.zeroHoursOn k w := by
  induction commands generalizing r actions with
  | nil =>
      cases happly
      rfl
  | cons command rest ih =>
      obtain ⟨r₁, ⟨action, hfirst⟩, actions₁, hrest⟩ := applyAll_cons_iff.mp ⟨actions, happly⟩
      rw [List.all_cons, Bool.and_eq_true] at hweek
      rw [ih (h.change (change_of_apply hfirst)) hweek.2 hrest,
        zeroHoursOn_of_apply h hweek.1 hfirst]

theorem zeroHoursOn_of_perform (h : r.WellFormed) {op : Operation} (hweek : op.keepsWeek = true)
    (hr' : r.perform op = .ok r') (k : CalendarId) (w : Weekday) :
    r'.zeroHoursOn k w = r.zeroHoursOn k w := by
  cases op with
  | edit id e => exact zeroHoursOn_of_edit h hweek hr' k w
  | apply command =>
      obtain ⟨⟨_, action⟩, happly, rfl⟩ := Answer.map_eq_ok_iff.mp hr'
      exact zeroHoursOn_of_apply h hweek happly k w
  | applyAll commands =>
      obtain ⟨⟨_, actions⟩, happly, rfl⟩ := Answer.map_eq_ok_iff.mp hr'
      exact zeroHoursOn_of_applyAll h hweek happly k w
  | _ => cases hweek

theorem zeroHoursOn_after (h : r.WellFormed) {ops : List Operation}
    (hops : ∀ op ∈ ops, op.keepsWeek = true) (k : CalendarId) (w : Weekday) :
    (r.after ops).zeroHoursOn k w = r.zeroHoursOn k w := by
  induction ops generalizing r with
  | nil => rfl
  | cons op ops ih =>
      obtain ⟨hop, hrest⟩ := List.forall_mem_cons.mp hops
      show ((r.attempt op).after ops).zeroHoursOn k w = _
      rw [attempt]
      cases hperform : r.perform op with
      | error e => exact ih h hrest
      | ok r' => rw [ih (h.perform hperform) hrest, zeroHoursOn_of_perform h hop hperform]

/-! ## The two questions -/

/-- The questions about weekdays without hours are answered alike in two registries, and
the loops that follow parents come to the same. -/
structure SameZeroHours (r r' : Registry) (id : CalendarId) : Prop where
  zeroHoursOn : ∀ w, r'.zeroHoursOn id w = r.zeroHoursOn id w
  zeroHoursWalk : ∀ w, r'.zeroHoursWalk id w = r.zeroHoursWalk id w
  onlyZeroHours : r'.onlyZeroHours id = r.onlyZeroHours id
  zeroHoursWalks : r'.zeroHoursWalks id Weekday.all = r.zeroHoursWalks id Weekday.all

theorem sameZeroHours_of_weekdays (h : r.WellFormed) (h' : r'.WellFormed) {id : CalendarId}
    (hsame : ∀ w, r'.zeroHoursOn id w = r.zeroHoursOn id w) : SameZeroHours r r' id := by
  have hall : r'.onlyZeroHours id = r.onlyZeroHours id := onlyZeroHours_congr hsame
  have hne : Weekday.all ≠ [] := List.cons_ne_nil _ _
  refine ⟨hsame, ?_, hall, ?_⟩
  · intro w
    rw [(ends_zeroHoursWalk h id w).ends, (ends_zeroHoursWalk h' id w).ends, hsame]
  · rw [(ends_zeroHoursWalks h id hne).ends, (ends_zeroHoursWalks h' id hne).ends]
    exact congrArg Part.some hall

/-- On a date on which current versions are in effect all the way up and no exception
decides, a calendar has no hours exactly when its current rules give none on that
weekday.  Edits of exceptions, moved boundaries and new versions, of whichever
calendars and in any number, leave what the current rules give on weekdays. -/
theorem zero_hours_predicted (h : r.Reachable) :
    (∀ c ∈ r.calendars.rows, ∀ d, r.CurrentOn c.id d → r.exceptionDay c.id d = .ok none →
      ∃ zero hours,
        (r.zeroHoursOn c.id d.weekday = .ok zero ∧
          r.zeroHoursWalk c.id d.weekday = .some (.ok zero)) ∧
        (r.capacityAt c.id d = .ok hours ∧ r.capacityWalk c.id d = .some (.ok hours)) ∧
        (zero = true ↔ hours = 0)) ∧
    ∀ ops : List Operation, (∀ op ∈ ops, op.keepsWeek = true) →
      ∀ id, SameZeroHours r (r.after ops) id := by
  have hwf := h.wellFormed
  constructor
  · intro c hc d hcurrent hnone
    obtain ⟨rest, hvs, -, -⟩ := versionsAlong_cons hwf Calendar.current_mem_versions hc
    have hvs' := (versionsAlong_of_currentOn hwf hcurrent).trans hvs
    have hzero : r.zeroHoursOn c.id d.weekday = .ok _ :=
      congrArg ((Version.weekdayHours d.weekday · == 0) <$> ·) hvs
    have hresolve : r.resolve c.id d = .ok _ := congrArg (Version.resolve d <$> ·) hvs'
    have hcapacity : r.capacityAt c.id d = .ok _ := congrArg (Resolution.hours <$> ·) hresolve
    refine ⟨_, _, ⟨hzero, (ends_zeroHoursWalk hwf c.id d.weekday).ends.trans
      (congrArg Part.some hzero)⟩, ⟨hcapacity, ((ends_resolveWalk hwf c.id d).map _).ends.trans
      (congrArg Part.some hcapacity)⟩, ?_⟩
    have hanswer := (exceptionDay_of_versionsAlong hwf hvs').1
    have hdecision := Except.ok.inj (hanswer.symm.trans hnone)
    rw [Version.hours_resolve hdecision, beq_iff_eq]
  · intro ops hops id
    exact sameZeroHours_of_weekdays hwf (h.after ops).wellFormed (zeroHoursOn_after hwf hops id)

/-- A new version of "Standard" and its boundary moved, a new holiday, and one taken out. -/
def holidayEdits : List Operation :=
  [.edit empty.nextId (.newVersion ⟨3652512, by decide⟩),
   .edit empty.nextId (.setValidFrom ⟨3652502, by decide⟩ ⟨3652512, by decide⟩),
   .edit summerId (.addException (holiday ⟨3652440, by decide⟩ ⟨11, by decide⟩)),
   .edit empty.nextId (.removeException holidayMonday)]

/-- "Summer" has hours on Mondays by its rule and none on Tuesdays, and so it is on the
Monday and on the Tuesday of the week after; edits of holidays and versions do not
change it. -/
theorem zero_hours_predicted_holidays :
    ∃ worked idle, (empty.after holidayHistory).capacityWalk summerId holidayMonday =
        .some (.ok worked) ∧ worked ≠ 0 ∧
      (empty.after holidayHistory).capacityWalk summerId ⟨3652440, by decide⟩ =
        .some (.ok idle) ∧ idle = 0 ∧
      ((empty.after holidayHistory).after holidayEdits).calendars.rows.map
          (fun c => (c.versions.length, c.current.exceptions.rows.length)) =
        [(2, 1), (2, 2), (1, 0)] ∧
      SameZeroHours (empty.after holidayHistory) ((empty.after holidayHistory).after holidayEdits)
        summerId := by
  obtain ⟨c, hc, hid⟩ : ∃ c ∈ (empty.after holidayHistory).calendars.rows, c.id = summerId := by
    decide +kernel
  have hcurrent : ∀ k ∈ (empty.after holidayHistory).calendars.rows,
      k.current.contains holidayMonday = true ∧
        k.current.contains ⟨3652440, by decide⟩ = true := by
    decide +kernel
  obtain ⟨hpredicted, hkept⟩ := zero_hours_predicted (Reachable.empty.after holidayHistory)
  have hnone : ∀ d ∈ [holidayMonday, ⟨3652440, by decide⟩],
      (empty.after holidayHistory).exceptionDay summerId d = .ok none := by
    decide +kernel
  have hrules : (empty.after holidayHistory).zeroHoursOn summerId .monday = .ok false ∧
      (empty.after holidayHistory).zeroHoursOn summerId .tuesday = .ok true := by
    decide +kernel
  obtain ⟨zero, worked, ⟨hzero, -⟩, ⟨-, hworked⟩, hiff⟩ := hpredicted c hc holidayMonday
    (fun k hk _ => (hcurrent k hk).1) (hid ▸ hnone _ (by simp))
  obtain ⟨zero', idle, ⟨hzero', -⟩, ⟨-, hidle⟩, hiff'⟩ := hpredicted c hc ⟨3652440, by decide⟩
    (fun k hk _ => (hcurrent k hk).2) (hid ▸ hnone _ (by simp))
  rw [hid] at hzero hzero' hworked hidle
  obtain rfl := Except.ok.inj (hzero.symm.trans hrules.1)
  obtain rfl := Except.ok.inj (hzero'.symm.trans hrules.2)
  exact ⟨worked, idle, hworked, mt hiff.mpr (by decide), hidle, hiff'.mp rfl, by decide +kernel,
    hkept holidayEdits (by decide) summerId⟩

end Registry

end WorkingTime
