/-
What an operation does, and the registries that can be reached.

An operation that is addressed to one calendar, by its id or by its name, makes a
single change when it comes out well, and a batch makes one for each of its
commands (`changes_of_perform`).  What every change keeps, `Reachable.induction`
therefore carries to every registry that can be reached.
-/
import WorkingTime.Proofs.Command.Operation
import WorkingTime.Proofs.Registry.Change
import WorkingTime.Stored.Read

namespace WorkingTime

open Relation (ReflTransGen)

namespace Registry

/-! ## Operations make changes -/

theorem change_of_perform {r r' : Registry} {op : Operation} {id : CalendarId}
    (hid : op.target r = some id) (h : r.perform op = .ok r') : Change r r' := by
  cases op with
  | create name =>
      obtain ⟨⟨id, _⟩, hr, rfl⟩ := Answer.map_eq_ok_iff.mp h
      exact change_of_create hr
  | derive parent name =>
      obtain ⟨⟨id, _⟩, hr, rfl⟩ := Answer.map_eq_ok_iff.mp h
      exact change_of_derive hr
  | copy source name =>
      obtain ⟨⟨id, _⟩, hr, rfl⟩ := Answer.map_eq_ok_iff.mp h
      exact change_of_copy hr
  | rename id name => exact change_of_rename h
  | remove id =>
      obtain ⟨⟨c, _⟩, hr, rfl⟩ := Answer.map_eq_ok_iff.mp h
      exact change_of_remove hr
  | setParent id parent => exact change_of_setParent h
  | edit id e => exact change_of_edit (fun _ _ => Calendar.Edit.edited_of_run) h
  | apply command => cases hid
  | applyAll commands => cases hid

theorem perform_edit_iff {r r' : Registry} {c : Calendar} (hc : c ∈ r.calendars.rows)
    {e : Calendar.Edit} :
    r.perform (.edit c.id e) = .ok r' ↔ ∃ c', e.run c = .ok c' ∧ r' = r.put c' := by
  rw [perform, edit_eq_put hc, Answer.map_eq_ok_iff]
  simp only [Answer.asRule_eq_ok_iff, eq_comm (a := r')]

theorem change_of_apply {r r' : Registry} {command : Command} {action : Action}
    (h : r.apply command = .ok (r', action)) : Change r r' := by
  obtain ⟨op, hop, hperform⟩ := operation_of_apply h
  obtain ⟨⟨id, hid⟩, -⟩ := target_of_operation hop
  exact change_of_perform hid hperform

theorem changes_of_applyAll {commands : List Command} {r r' : Registry} {actions : List Action}
    (h : r.applyAll commands = .ok (r', actions)) : ReflTransGen Change r r' := by
  induction commands generalizing r actions with
  | nil =>
      cases h
      exact .refl
  | cons command rest ih =>
      obtain ⟨r₁, ⟨action, happly⟩, actions₁, hrest⟩ := applyAll_cons_iff.mp ⟨actions, h⟩
      exact (ih hrest).head (change_of_apply happly)

theorem changes_of_perform {r r' : Registry} {op : Operation} (h : r.perform op = .ok r') :
    ReflTransGen Change r r' := by
  cases op with
  | apply command =>
      obtain ⟨⟨_, action⟩, hr, rfl⟩ := Answer.map_eq_ok_iff.mp h
      exact .single (change_of_apply hr)
  | applyAll commands =>
      obtain ⟨⟨_, actions⟩, hr, rfl⟩ := Answer.map_eq_ok_iff.mp h
      exact changes_of_applyAll hr
  | _ => exact .single (change_of_perform rfl h)

theorem changes_of_attempt (r : Registry) (op : Operation) :
    ReflTransGen Change r (r.attempt op) := by
  rw [attempt]
  split
  next h => exact changes_of_perform h
  · exact .refl

theorem changes_of_after (ops : List Operation) (r : Registry) :
    ReflTransGen Change r (r.after ops) := by
  induction ops generalizing r with
  | nil => exact .refl
  | cons op ops ih => exact (changes_of_attempt r op).trans (ih (r.attempt op))

/-! ## Reachable registries -/

/-- The registries that operations make, beginning with the empty one or with
one put together from calendars or read from a document.  The calendars put
together are calendars, which is to say that their versions pass the check
that `Calendar.ofVersions` makes. -/
inductive Reachable : Registry → Prop
  | empty : Reachable empty
  | assembled {cs : List Calendar} {nextId : CalendarId} {r : Registry} :
      (∀ c ∈ cs, Calendar.ofVersions c.id c.name c.versions = .ok c) →
      ofCalendars cs nextId = .ok r → Reachable r
  | decoded {value : Reading} {r : Registry} : ofReading value = .ok r → Reachable r
  | parsed {text : String} {r : Registry} : parse text = .ok r → Reachable r
  | step {r : Registry} (op : Operation) : Reachable r → Reachable (r.attempt op)

theorem Reachable.perform {r r' : Registry} (h : r.Reachable) {op : Operation}
    (hop : r.perform op = .ok r') : r'.Reachable := by
  have hattempt : r.attempt op = r' := by rw [attempt, hop]
  exact hattempt ▸ h.step op

theorem Reachable.apply {r r' : Registry} (h : r.Reachable) {command : Command} {action : Action}
    (happly : r.apply command = .ok (r', action)) : r'.Reachable := by
  have hop : r.perform (.apply command) = .ok r' := Answer.map_eq_ok_iff.mpr ⟨_, happly, rfl⟩
  exact h.perform hop

theorem Reachable.applyAll {r r' : Registry} (h : r.Reachable) {commands : List Command}
    {actions : List Action} (happly : r.applyAll commands = .ok (r', actions)) :
    r'.Reachable := by
  have hop : r.perform (.applyAll commands) = .ok r' :=
    Answer.map_eq_ok_iff.mpr ⟨_, happly, rfl⟩
  exact h.perform hop

theorem Reachable.after {r : Registry} (h : Reachable r) (ops : List Operation) :
    Reachable (r.after ops) := by
  induction ops generalizing r with
  | nil => exact h
  | cons op ops ih => exact ih (h.step op)

theorem ofReading_of_parse {text : String} {r : Registry} (h : parse text = .ok r) :
    ∃ value, ofReading value = .ok r := by
  obtain ⟨r₁, hr, h⟩ := Answer.bind_eq_ok_iff.mp h
  simp only [Answer.throw_bind, Answer.require_eq_ok_iff, Answer.pure_eq_ok_iff] at h
  exact ⟨_, h.2 ▸ hr⟩

theorem invariant_of_changes {P : Registry → Prop} (hchange : ∀ r r', P r → Change r r' → P r')
    {r r' : Registry} (hr : P r) (h : ReflTransGen Change r r') : P r' := by
  induction h with
  | refl => exact hr
  | tail _ hstep ih => exact hchange _ _ ih hstep

/-- A property of registries holds of all that can be reached, when it holds of
those that operations begin with and every change keeps it. -/
theorem Reachable.induction {P : Registry → Prop} (hempty : P Registry.empty)
    (hassembled : ∀ cs nextId r, (∀ c ∈ cs, Version.DivideTime c.versions) →
      ofCalendars cs nextId = .ok r → P r)
    (hdecoded : ∀ value r, ofReading value = .ok r → P r)
    (hchange : ∀ r r', P r → Change r r' → P r') {r : Registry} (h : Reachable r) : P r := by
  induction h with
  | empty => exact hempty
  | assembled hcs hr =>
      exact hassembled _ _ _ (fun c hc => (Calendar.ofVersions_eq_ok_iff.mp (hcs c hc)).1) hr
  | decoded hr => exact hdecoded _ _ hr
  | parsed hr =>
      obtain ⟨value, hvalue⟩ := ofReading_of_parse hr
      exact hdecoded _ _ hvalue
  | step op _ ih => exact invariant_of_changes hchange ih (changes_of_attempt _ op)

end Registry

end WorkingTime
