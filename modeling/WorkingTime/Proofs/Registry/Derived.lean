/-
Derived calendars.

A calendar derived from another one has a single version that leaves everything
to its parent, so it mirrors its parent: all its answers are those of the parent,
seen from below, and the parent cannot be taken out (`mirrors_of_mem`).  Its
version stays as it is while nobody edits that very calendar, whatever happens
to the parent and to others (`kept_of_run`).  So it mirrors its parent in every
state of such a run (`derived_mirrors_parent`).
-/
import WorkingTime.Proofs.Registry.Agreement
import WorkingTime.Proofs.Registry.Frame
import WorkingTime.Proofs.Registry.Run

namespace WorkingTime

/-! ## A version that leaves everything to its parent -/

namespace Version

variable {p : CalendarId} {vs : List Version}

theorem week_get_derivedFrom (p : CalendarId) (w : Weekday) :
    (derivedFrom p).week.get w = .inherited := by
  cases w <;> rfl

theorem resolve_derivedFrom (d : Date) :
    resolve d (derivedFrom p :: vs) = (resolve d vs).passedDown :=
  resolve_of_inherited rfl (week_get_derivedFrom p _)

theorem weekdayHours_derivedFrom (w : Weekday) :
    weekdayHours w (derivedFrom p :: vs) = weekdayHours w vs := by
  rw [weekdayHours, week_get_derivedFrom]

theorem effectiveExceptions_derivedFrom :
    effectiveExceptions (derivedFrom p :: vs) = effectiveExceptions vs := by
  have hall : (fun e : ExceptionDay => ((derivedFrom p).week.get e.date.weekday).isInherited) =
      fun _ => true := by
    funext e
    rw [week_get_derivedFrom]
    rfl
  rw [effectiveExceptions, hall, Table.filter_true]
  exact Table.empty_overlay _

end Version

namespace Registry

variable {r r' : Registry} {p k : CalendarId}

/-! ## Mirrors -/

/-- The calendar `k` has the answers of `p`, whose own exceptions are an
ancestor's to it, and keeps `p` from being taken out. -/
structure Mirrors (r : Registry) (p k : CalendarId) : Prop extends SameHours r p r k where
  classify : ∀ d, r.classify k d = DayType.passedDown <$> r.classify p d
  inUse : ∃ other, r.remove p = .error (.parentInUse p other)

theorem remove_of_parent (h : r.WellFormed) {a : CalendarId} (hedge : r.HasParent a p) :
    ∃ other, r.remove p = .error (.parentInUse p other) := by
  obtain ⟨parent, hparent, rfl⟩ := h.closed a p hedge
  obtain ⟨c, hc, rfl, hp⟩ := hedge
  have hne : c.id ≠ parent.id := by
    intro heq
    exact h.acyclic parent.id (.single ⟨c, hc, heq, hp⟩)
  rw [remove, get_id hparent]
  cases hdependant : r.dependant? parent.id with
  | none => exact absurd hp (dependant?_eq_none_iff.mp hdependant c hc hne)
  | some other => exact ⟨other.id, rfl⟩

theorem mirrors_of_mem (h : r.WellFormed) {name : String}
    (hk : Calendar.single k name (.derivedFrom p) ∈ r.calendars.rows) : Mirrors r p k := by
  have halong : ∀ pick : Calendar → Version, (∀ c, pick c ∈ c.versions) →
      pick (.single k name (.derivedFrom p)) = .derivedFrom p →
      r.versionsAlong pick k = (Version.derivedFrom p :: ·) <$> r.versionsAlong pick p := by
    intro pick hpick hderived
    have hcons := versionsAlong_of_mem h hpick hk
    rw [hderived] at hcons
    exact hcons
  have hresolve : ∀ d, r.resolve k d = Resolution.passedDown <$> r.resolve p d := by
    intro d
    rw [resolve, resolve, halong _ (fun c => c.versionAt_mem_versions d) rfl,
      Functor.map_map, Functor.map_map]
    simp only [Version.resolve_derivedFrom]
  have hcurrent := halong _ Calendar.current_mem_versions rfl
  have hedge : r.HasParent k p := ⟨_, hk, rfl, mem_parents_single.mpr rfl⟩
  refine ⟨sameHours_of_dates ?_ ?_ ?_ ?_, ?_, remove_of_parent h hedge⟩
  · intro d
    simp only [capacityAt, hresolve, Functor.map_map, Resolution.hours_passedDown]
  · intro d
    simp only [exceptionDay, hresolve, Functor.map_map, Resolution.exception?_passedDown]
  · simp only [exceptions, hcurrent, Functor.map_map, Version.effectiveExceptions_derivedFrom]
  · intro w
    simp only [zeroHoursOn, hcurrent, Functor.map_map, Version.weekdayHours_derivedFrom]
  · intro d
    simp only [classify, hresolve, Functor.map_map, Resolution.dayType_passedDown]

end Registry

/-! ## Steps that leave a calendar alone -/

section Spares

variable (k : CalendarId)

/-- Whether a command takes out, reparents or edits no calendar with this id. -/
def Command.spares (r : Registry) (command : Command) : Bool :=
  command.edited?.all fun name => r.idOf name != .ok k

/-- Whether no command of a batch does, each with the names as they are by
then; a command that fails ends the batch. -/
def Registry.batchSpares (r : Registry) : List Command → Bool
  | [] => true
  | command :: rest =>
      command.spares k r &&
        match r.apply command with
        | .ok (r, _) => r.batchSpares rest
        | .error _ => true

def Operation.spares (r : Registry) : Operation → Bool
  | apply command => command.spares k r
  | applyAll commands => r.batchSpares k commands
  | op => op.edited?.all (· != k)

def Step.spares (r : Registry) : Step → Bool
  | operation op => op.spares k r
  | reload _ => true

def Registry.runSpares (r : Registry) : List Step → Bool
  | [] => true
  | s :: steps => s.spares k r && (r.step s).runSpares steps

end Spares

namespace Registry

variable {r r' : Registry} {p k : CalendarId} {c : Calendar}

/-- An operation that is not about a calendar, or only renames it, leaves
everything of it but the name. -/
theorem kept_of_target (h : r.WellFormed) (hc : c ∈ r.calendars.rows) {op : Operation}
    {id : CalendarId} (hid : op.target r = some id) (hedited : ∀ a ∈ op.edited?, a ≠ c.id)
    (hop : r.perform op = .ok r') : ∃ name, { c with name } ∈ r'.calendars.rows := by
  by_cases htarget : c.id = id
  · cases op with
    | create _ | derive _ _ | copy _ _ =>
        have hnext : r.nextId = id := Option.some.inj hid
        have hlt := h.fresh c hc
        rw [htarget, hnext] at hlt
        exact absurd hlt (Nat.lt_irrefl _)
    | rename a text =>
        obtain rfl : a = id := Option.some.inj hid
        obtain ⟨x, name, hx, hxid, -, -, rfl⟩ := of_rename hop
        obtain rfl : x = c := eq_of_id_eq hx hc (hxid.trans htarget.symm)
        exact ⟨name, mem_put.mpr (.inl rfl)⟩
    | remove a | setParent a _ | edit a _ =>
        have ha : a = id := Option.some.inj hid
        exact absurd (ha.trans htarget.symm) (hedited a rfl)
    | apply _ | applyAll _ => cases hid
  · exact ⟨c.name, ((frame_of_perform hop hid).others c htarget).mpr hc⟩

theorem kept_of_apply (h : r.WellFormed) (hc : c ∈ r.calendars.rows) {command : Command}
    {action : Action} (hspares : command.spares c.id r = true)
    (happly : r.apply command = .ok (r', action)) :
    ∃ name, { c with name } ∈ r'.calendars.rows := by
  obtain ⟨op, hop, hperform⟩ := operation_of_apply happly
  obtain ⟨⟨id, hid⟩, hedited⟩ := target_of_operation hop
  refine kept_of_target h hc hid ?_ hperform
  rintro a ha rfl
  obtain ⟨name, hname, hfound⟩ := hedited _ ha
  rw [Command.spares, Option.all_eq_true] at hspares
  simpa [hfound] using hspares name hname

theorem kept_of_applyAll {commands : List Command} {actions : List Action} (h : r.WellFormed)
    (hc : c ∈ r.calendars.rows) (hspares : r.batchSpares c.id commands = true)
    (happly : r.applyAll commands = .ok (r', actions)) :
    ∃ name, { c with name } ∈ r'.calendars.rows := by
  induction commands generalizing r c actions with
  | nil =>
      cases happly
      exact ⟨c.name, hc⟩
  | cons command rest ih =>
      obtain ⟨r₁, ⟨action, hfirst⟩, actions₁, hrest⟩ := applyAll_cons_iff.mp ⟨actions, happly⟩
      rw [batchSpares, hfirst, Bool.and_eq_true] at hspares
      obtain ⟨name, hname⟩ := kept_of_apply h hc hspares.1 hfirst
      exact ih (c := { c with name }) (h.change (change_of_apply hfirst)) hname hspares.2 hrest

theorem kept_of_step (h : r.Reachable) (hc : c ∈ r.calendars.rows) {s : Step}
    (hspares : s.spares c.id r = true) : ∃ name, { c with name } ∈ (r.step s).calendars.rows := by
  have hwf := h.wellFormed
  cases s with
  | reload pretty =>
      rw [step_reload h]
      exact ⟨c.name, hc⟩
  | operation op =>
      rw [step, attempt]
      cases hop : r.perform op with
      | error e => exact ⟨c.name, hc⟩
      | ok r' =>
          cases op with
          | apply command =>
              obtain ⟨⟨_, action⟩, happly, rfl⟩ := Answer.map_eq_ok_iff.mp hop
              exact kept_of_apply hwf hc hspares happly
          | applyAll commands =>
              obtain ⟨⟨_, actions⟩, happly, rfl⟩ := Answer.map_eq_ok_iff.mp hop
              exact kept_of_applyAll hwf hc hspares happly
          | _ =>
              simp only [Step.spares, Operation.spares, Option.all_eq_true, bne_iff_ne] at hspares
              exact kept_of_target hwf hc rfl hspares hop

theorem kept_of_run {steps : List Step} (h : r.Reachable) (hc : c ∈ r.calendars.rows)
    (hspares : r.runSpares c.id steps = true) :
    ∃ name, { c with name } ∈ (r.run steps).calendars.rows := by
  induction steps generalizing r c with
  | nil => exact ⟨c.name, hc⟩
  | cons s steps ih =>
      rw [runSpares, Bool.and_eq_true] at hspares
      obtain ⟨name, hname⟩ := kept_of_step h hc hspares.1
      exact ih (c := { c with name }) (h.afterStep s) hname hspares.2

theorem runSpares_take {steps : List Step} (hspares : r.runSpares k steps = true) (n : Nat) :
    r.runSpares k (steps.take n) = true := by
  induction steps generalizing r n with
  | nil => rw [List.take_nil]; rfl
  | cons s steps ih =>
      cases n with
      | zero => rfl
      | succ n =>
          rw [runSpares, Bool.and_eq_true] at hspares
          rw [List.take_succ_cons, runSpares, Bool.and_eq_true]
          exact ⟨hspares.1, ih hspares.2 n⟩

/-! ## Derived calendars -/

/-- A derived calendar mirrors its parent when it is made and in every state of
a run that does not take it out, reparent or edit it. -/
theorem derived_mirrors_parent (h : r.Reachable) {name : String}
    (hderive : r.derive p name = .ok (k, r')) {steps : List Step}
    (hsteps : r'.runSpares k steps = true) (n : Nat) : Mirrors (r'.run (steps.take n)) p k := by
  have hperform : r.perform (.derive p name) = .ok r' :=
    Answer.map_eq_ok_iff.mpr ⟨_, hderive, rfl⟩
  have hreach : r'.Reachable := h.perform hperform
  obtain ⟨_, -, hadd⟩ := Answer.bind_eq_ok_iff.mp hderive
  obtain ⟨text, next, -, -, -, rfl, rfl⟩ := of_add hadd
  have hk : Calendar.single r.nextId text (.derivedFrom p) ∈
      (r.calendars.insert (.single r.nextId text (.derivedFrom p))).rows :=
    Table.mem_insert.mpr (.inl rfl)
  obtain ⟨name, hname⟩ := kept_of_run hreach hk (runSpares_take hsteps n)
  exact mirrors_of_mem (hreach.run _).wellFormed hname

/-- Changes to the first calendar of `derivedHistory`, while one that is derived
from it gets another name. -/
def parentEdits : List Step :=
  [.operation (.edit empty.nextId (.newVersion ⟨3652425, by decide⟩)),
   .operation (.applyAll
     [.setHours "Standard" .monday (some ⟨4, by decide⟩), .renameCalendar "Autumn" "Fall"]),
   .operation (.remove empty.nextId), .reload true]

theorem derived_mirrors_parent_derived :
    ∃ r', (empty.after derivedHistory).derive ⟨1, by decide⟩ "Autumn" =
        .ok (⟨4, by decide⟩, r') ∧
      r'.capacityAt ⟨4, by decide⟩ ⟨3652425, by decide⟩ = .ok 8 ∧
      (r'.run (parentEdits.take 3)).capacityAt ⟨4, by decide⟩ ⟨3652425, by decide⟩ = .ok 4 ∧
      ∀ n, Mirrors (r'.run (parentEdits.take n)) ⟨1, by decide⟩ ⟨4, by decide⟩ := by
  obtain ⟨⟨k, r'⟩, hderive, htest⟩ := Answer.exists_ok_of_any
    (x := (empty.after derivedHistory).derive ⟨1, by decide⟩ "Autumn")
    (p := fun x => x.1.value == 4 && x.2.runSpares x.1 parentEdits &&
      x.2.capacityAt x.1 ⟨3652425, by decide⟩ == .ok 8 &&
      (x.2.run (parentEdits.take 3)).capacityAt x.1 ⟨3652425, by decide⟩ == .ok 4)
    (by decide +kernel)
  simp only [Bool.and_eq_true, beq_iff_eq] at htest
  obtain ⟨⟨⟨hid, hspares⟩, hbefore⟩, hafter⟩ := htest
  obtain rfl : k = ⟨4, by decide⟩ := CalendarId.ext hid
  exact ⟨r', hderive, hbefore, hafter,
    derived_mirrors_parent (Reachable.empty.after derivedHistory) hderive hspares⟩

end Registry

end WorkingTime
