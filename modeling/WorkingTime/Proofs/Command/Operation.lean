/-
Operations as data, and commands as operations.

`Operation` lists the operations of a registry with their arguments, single
commands and batches included; `attempt` carries one out and leaves the registry
alone when it is refused.  A command goes by names and an operation by ids, and
that is the only difference between the two: the names are looked up first, and
then the operation is performed (`apply_eq_perform`).  What is known of operations is
thereby known of commands, and a question about all commands comes down to one
about looking up names.
-/
import WorkingTime.Command.Effect
import WorkingTime.Proofs.Calendar.Edit

namespace WorkingTime

/-- An operation of a registry with its arguments: an edit of the registry, an
edit of one of its calendars, a command, or a batch of commands. -/
inductive Operation where
  | create (name : String)
  | derive (parent : CalendarId) (name : String)
  | copy (source : CalendarId) (name : String)
  | rename (id : CalendarId) (name : String)
  | remove (id : CalendarId)
  | setParent (id : CalendarId) (parent : Option CalendarId)
  | edit (id : CalendarId) (e : Calendar.Edit)
  | apply (command : Command)
  | applyAll (commands : List Command)

namespace Registry

def perform (r : Registry) : Operation → Except RegistryError Registry
  | .create name => (·.2) <$> r.create name
  | .derive parent name => (·.2) <$> r.derive parent name
  | .copy source name => (·.2) <$> r.copy source name
  | .rename id name => r.rename id name
  | .remove id => (·.2) <$> r.remove id
  | .setParent id parent => r.setParent id parent
  | .edit id e => r.edit id e.run
  | .apply command => (·.1) <$> r.apply command
  | .applyAll commands => (·.1) <$> r.applyAll commands

/-- The registry after an operation was tried: a refused one changes nothing. -/
def attempt (r : Registry) (op : Operation) : Registry :=
  match r.perform op with
  | .ok r' => r'
  | .error _ => r

/-- The registry after operations were tried one after the other. -/
def after (r : Registry) (ops : List Operation) : Registry :=
  ops.foldl attempt r

end Registry

/-! ## What an operation is about -/

namespace Operation

/-- The calendar that an operation is addressed to, or the one that it makes.
Commands go by names, and a batch may be about many calendars. -/
def target (r : Registry) : Operation → Option CalendarId
  | create _ | derive _ _ | copy _ _ => some r.nextId
  | rename id _ | remove id | setParent id _ | edit id _ => some id
  | apply _ | applyAll _ => none

def creates : Operation → Bool
  | create _ | derive _ _ | copy _ _ => true
  | _ => false

theorem target_of_creates {op : Operation} (h : op.creates = true) (r : Registry) :
    op.target r = some r.nextId := by
  cases op with
  | create _ | derive _ _ | copy _ _ => rfl
  | _ => cases h

/-- The calendar that an operation takes out, gives another parent or edits. -/
def edited? : Operation → Option CalendarId
  | remove id | setParent id _ | edit id _ => some id
  | _ => none

end Operation

/-! ## Commands as operations -/

namespace Command

/-- The operation that a command stands for, once the calendars that it names
are found.  The hours of a new exception are checked along with them. -/
def operation (r : Registry) : Command → Except RegistryError Operation
  | createCalendar name => .ok (.create name)
  | deriveCalendar parent name => (.derive · name) <$> r.idOf parent
  | copyCalendar source name => (.copy · name) <$> r.idOf source
  | renameCalendar calendar name => (.rename · name) <$> r.idOf calendar
  | removeCalendar calendar => .remove <$> r.idOf calendar
  | setHours calendar weekday hours =>
      (.edit · (.setHours weekday (hours.map (·.value)))) <$> r.idOf calendar
  | addException calendar date hours category => do
      let id ← r.idOf calendar
      let e ← asRule (ExceptionDay.enter date hours.value category)
      return .edit id (.addException e)
  | removeException calendar date => (.edit · (.removeException date)) <$> r.idOf calendar
  | updateException calendar date hours category =>
      (.edit · (.updateException date hours.value category)) <$> r.idOf calendar
  | setParent calendar parent => do
      let id ← r.idOf calendar
      let parentId ← parent.mapM r.idOf
      return .setParent id parentId
  | newVersion calendar effectiveFrom => (.edit · (.newVersion effectiveFrom)) <$> r.idOf calendar
  | setExpiringDate calendar date reference =>
      (.edit · (.setExpires date reference)) <$> r.idOf calendar
  | setValidFrom calendar date reference =>
      (.edit · (.setValidFrom date reference)) <$> r.idOf calendar

/-- The name of the calendar that a command takes out, gives another parent or
edits.  Making a calendar and renaming one leaves the rules of all others. -/
def edited? : Command → Option String
  | createCalendar _ | deriveCalendar .. | copyCalendar .. | renameCalendar .. => none
  | removeCalendar calendar | setHours calendar .. | addException calendar ..
  | removeException calendar _ | updateException calendar .. | setParent calendar _
  | newVersion calendar _ | setExpiringDate calendar .. | setValidFrom calendar .. =>
      some calendar

end Command

namespace Registry

/-! ## Names first, then the operation -/

theorem snd_removeException (r : Registry) (id : CalendarId) (d : Date) :
    (·.2) <$> r.removeException id d = r.edit id (Calendar.Edit.removeException d).run := by
  simp only [removeException, edit, map_bind]
  congr 1
  funext c
  show _ = asRule ((·.2) <$> c.removeException d) >>= _
  cases c.removeException d <;> rfl

theorem apply_eq_perform (r : Registry) (command : Command) :
    (·.1) <$> r.apply command = command.operation r >>= r.perform := by
  -- what is left after both sides are brought to the form "look up, then act"
  -- differs in the details of the record at most
  cases command <;>
    simp only [apply, Command.effect, Command.operation, map_bind, bind_assoc, bind_map_left,
      bind_pure_comp, Functor.map_map, id_map', snd_removeException]
  case setHours calendar weekday hours =>
    cases hours <;> simp only [map_pure, bind_pure] <;> rfl
  case setParent calendar parent =>
    cases parent <;> simp only [map_pure, bind_pure] <;> rfl
  all_goals rfl

theorem operation_of_apply {r r' : Registry} {command : Command} {action : Action}
    (h : r.apply command = .ok (r', action)) :
    ∃ op, command.operation r = .ok op ∧ r.perform op = .ok r' := by
  have hmap : (·.1) <$> r.apply command = .ok r' := by
    rw [h]
    rfl
  rw [apply_eq_perform] at hmap
  exact Answer.bind_eq_ok_iff.mp hmap

/-! ## Batches -/

theorem applyAll_cons_iff {r r' : Registry} {command : Command} {rest : List Command} :
    (∃ actions, r.applyAll (command :: rest) = .ok (r', actions)) ↔
      ∃ r₁, (∃ action, r.apply command = .ok (r₁, action)) ∧
        ∃ actions, r₁.applyAll rest = .ok (r', actions) := by
  simp only [applyAll, Answer.bind_eq_ok_iff, Answer.pure_eq_ok_iff]
  constructor
  · rintro ⟨_, ⟨r₁, action⟩, happly, ⟨r₂, actions⟩, hall, ⟨⟩⟩
    exact ⟨r₁, ⟨action, happly⟩, actions, hall⟩
  · rintro ⟨r₁, ⟨action, happly⟩, actions, hall⟩
    exact ⟨_, _, happly, _, hall, rfl⟩

theorem applyAll_append_iff {r r' : Registry} {first second : List Command} :
    (∃ actions, r.applyAll (first ++ second) = .ok (r', actions)) ↔
      ∃ r₁, (∃ actions, r.applyAll first = .ok (r₁, actions)) ∧
        ∃ actions, r₁.applyAll second = .ok (r', actions) := by
  induction first generalizing r with
  | nil => simp [applyAll]
  | cons command first ih =>
      simp only [List.cons_append, applyAll_cons_iff, ih]
      constructor
      · rintro ⟨r₁, happly, r₂, hfirst, hsecond⟩
        exact ⟨r₂, ⟨r₁, happly, hfirst⟩, hsecond⟩
      · rintro ⟨r₂, ⟨r₁, happly, hfirst⟩, hsecond⟩
        exact ⟨r₁, happly, r₂, hfirst, hsecond⟩

/-! ## What a command is about -/

/-- The operation of a command has a target, and what it edits is what the
command names. -/
theorem target_of_operation {r : Registry} {command : Command} {op : Operation}
    (h : command.operation r = .ok op) :
    (∃ id, op.target r = some id) ∧
      ∀ id ∈ op.edited?, ∃ name ∈ command.edited?, r.idOf name = .ok id := by
  cases command
  case createCalendar name =>
    cases h
    exact ⟨⟨_, rfl⟩, by simp [Operation.edited?]⟩
  case addException calendar date hours category =>
    simp only [Command.operation, Answer.bind_eq_ok_iff, Answer.pure_eq_ok_iff] at h
    obtain ⟨id, hid, e, -, rfl⟩ := h
    exact ⟨⟨_, rfl⟩, fun k hk => ⟨calendar, rfl, Option.some.inj hk ▸ hid⟩⟩
  case setParent calendar parent =>
    simp only [Command.operation, Answer.bind_eq_ok_iff, Answer.pure_eq_ok_iff] at h
    obtain ⟨id, hid, p, -, rfl⟩ := h
    exact ⟨⟨_, rfl⟩, fun k hk => ⟨calendar, rfl, Option.some.inj hk ▸ hid⟩⟩
  case deriveCalendar | copyCalendar | renameCalendar =>
    obtain ⟨id, -, rfl⟩ := Answer.map_eq_ok_iff.mp h
    exact ⟨⟨_, rfl⟩, by simp [Operation.edited?]⟩
  all_goals
    obtain ⟨id, hid, rfl⟩ := Answer.map_eq_ok_iff.mp h
    exact ⟨⟨_, rfl⟩, fun k hk => ⟨_, rfl, Option.some.inj hk ▸ hid⟩⟩

end Registry

end WorkingTime
