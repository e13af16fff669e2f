/-
What an operation leaves as it was.

Said of the operations as programs that write into their state: one that fails
leaves its state alone, and one that comes out well has touched the calendar it
is addressed to, or the one it makes, and no other (`operation_touches_target`).
Programs that run one after the other, some of them refused, therefore arrive at
the registry that the operations make (`stateAfter_eq_after`).
-/
import WorkingTime.Proofs.Registry.InPlace

namespace WorkingTime

/-! ## Operations as programs -/

namespace Operation

open Registry (addInPlace deriveInPlace copyInPlace renameInPlace removeInPlace setParentInPlace
  onCalendar onCopy)

def program : Operation → EStateM RegistryError Registry Unit
  | create name => do
      let _ ← addInPlace name {}
  | derive parent name => do
      let _ ← deriveInPlace parent name
  | copy source name => do
      let _ ← copyInPlace source name
  | rename id name => renameInPlace id name
  | remove id => do
      let _ ← removeInPlace id
  | setParent id parent => setParentInPlace id parent
  | edit id e => onCalendar id e.program
  | apply command => onCopy fun r => (·.1) <$> r.apply command
  | applyAll commands => onCopy fun r => (·.1) <$> r.applyAll commands

/-- A program ends as its operation does, and when that is a failure, its state
is what it was. -/
theorem run_program (op : Operation) (r : Registry) :
    op.program.run r = settle r (((), ·) <$> r.perform op) := by
  cases op with
  | create name => exact run_bind_pure (Registry.run_addInPlace name {} r)
  | derive parent name => exact run_bind_pure (Registry.run_deriveInPlace parent name r)
  | copy source name => exact run_bind_pure (Registry.run_copyInPlace source name r)
  | rename id name => exact Registry.run_renameInPlace id name r
  | remove id => exact run_bind_pure (Registry.run_removeInPlace id r)
  | setParent id parent => exact Registry.run_setParentInPlace id parent r
  | edit id e =>
      rw [program, Registry.run_onCalendar e.run_program, Registry.perform, Registry.edit]
      cases r.get id with
      | error e => rfl
      | ok c =>
          show settle r (asRule _ >>= _) = settle r (_ <$> (asRule (e.run c) >>= _))
          cases e.run c <;> rfl
  | apply command => exact Registry.run_onCopy _ r
  | applyAll commands => exact Registry.run_onCopy _ r

/-- The registry a caller holds after programs were run one after the other,
whatever each of them answered. -/
def stateAfter (r : Registry) : List Operation → Registry
  | [] => r
  | op :: ops =>
      match op.program.run r with
      | .ok _ r' => stateAfter r' ops
      | .error _ r' => stateAfter r' ops

theorem stateAfter_eq_after (ops : List Operation) (r : Registry) :
    stateAfter r ops = r.after ops := by
  induction ops generalizing r with
  | nil => rfl
  | cons op ops ih =>
      rw [stateAfter, run_program]
      show _ = (r.attempt op).after ops
      rw [Registry.attempt]
      cases r.perform op with
      | error e => exact ih r
      | ok r' => exact ih r'

end Operation

namespace Registry

/-! ## Frames -/

/-- All calendars but one are what they were, and so many ids were taken. -/
structure Frame (id : CalendarId) (taken : Nat) (r r' : Registry) : Prop where
  others : ∀ c, c.id ≠ id → (c ∈ r'.calendars.rows ↔ c ∈ r.calendars.rows)
  nextId : r'.nextId.value = r.nextId.value + taken

section Frames

variable {r r' : Registry} {id : CalendarId} {text : String}

theorem frame_put {c : Calendar} (hid : c.id = id) : Frame id 0 r (r.put c) where
  others x hx := by
    rw [mem_put, hid]
    constructor
    · rintro (rfl | ⟨hmem, -⟩)
      · exact absurd hid hx
      · exact hmem
    · exact fun hmem => .inr ⟨hmem, hx⟩
  nextId := rfl

theorem frame_of_add {v : Version} (h : r.add text v = .ok (id, r')) :
    Frame r.nextId 1 r r' ∧ ∃ c ∈ r'.calendars.rows, c.id = r.nextId := by
  obtain ⟨name, next, -, -, hnext, -, rfl⟩ := of_add h
  have hput : Frame r.nextId 0 { r with nextId := next } _ :=
    frame_put (c := .single r.nextId name v) rfl
  exact ⟨⟨hput.others, CalendarId.next?_eq_some_iff.mp hnext⟩, _, mem_put.mpr (.inl rfl), rfl⟩

theorem frame_of_rename (h : r.rename id text = .ok r') : Frame id 0 r r' := by
  obtain ⟨c, name, -, hid, -, -, rfl⟩ := of_rename h
  exact frame_put hid

theorem frame_of_remove {c : Calendar} (h : r.remove id = .ok (c, r')) : Frame id 0 r r' := by
  obtain ⟨-, rfl, -, rfl⟩ := of_remove h
  refine ⟨?_, rfl⟩
  intro x hx
  rw [Table.mem_erase]
  exact and_iff_left (mt key_eq_iff.mp hx)

theorem frame_of_setParent {parent : Option CalendarId} (h : r.setParent id parent = .ok r') :
    Frame id 0 r r' := by
  obtain ⟨c, -, hid, -, rfl⟩ := of_setParent h
  exact frame_put hid

theorem frame_of_edit {change : Calendar → Except RuleError Calendar}
    (hchange : ∀ c c', change c = .ok c' → c'.id = c.id) (h : r.edit id change = .ok r') :
    Frame id 0 r r' := by
  obtain ⟨c, -, hid, c', hc', rfl⟩ := of_edit h
  exact frame_put ((hchange c c' hc').trans hid)

end Frames

theorem add_of_perform {r r' : Registry} {op : Operation} (hop : op.creates = true)
    (h : r.perform op = .ok r') : ∃ text v id, r.add text v = .ok (id, r') := by
  cases op with
  | create name =>
      obtain ⟨⟨id, _⟩, hr, rfl⟩ := Answer.map_eq_ok_iff.mp h
      exact ⟨name, {}, id, hr⟩
  | derive parent name =>
      obtain ⟨⟨id, _⟩, hr, rfl⟩ := Answer.map_eq_ok_iff.mp h
      obtain ⟨_, _, hr⟩ := Answer.bind_eq_ok_iff.mp hr
      exact ⟨name, .derivedFrom parent, id, hr⟩
  | copy source name =>
      obtain ⟨⟨id, _⟩, hr, rfl⟩ := Answer.map_eq_ok_iff.mp h
      obtain ⟨c, _, hr⟩ := Answer.bind_eq_ok_iff.mp hr
      exact ⟨name, c.current, id, hr⟩
  | _ => cases hop

/-- A success touches its target, and takes an id when it makes a calendar. -/
theorem frame_of_perform {r r' : Registry} {op : Operation} {id : CalendarId}
    (h : r.perform op = .ok r') (hid : op.target r = some id) :
    Frame id op.creates.toNat r r' := by
  cases op with
  | create _ | derive _ _ | copy _ _ =>
      cases hid
      obtain ⟨_, _, _, hr⟩ := add_of_perform rfl h
      exact (frame_of_add hr).1
  | rename k name =>
      cases hid
      exact frame_of_rename h
  | remove k =>
      cases hid
      obtain ⟨⟨c, _⟩, hr, rfl⟩ := Answer.map_eq_ok_iff.mp h
      exact frame_of_remove hr
  | setParent k parent =>
      cases hid
      exact frame_of_setParent h
  | edit k e =>
      cases hid
      exact frame_of_edit (fun _ _ hrun => (Calendar.Edit.edited_of_run hrun).id_eq) h
  | apply command => cases hid
  | applyAll commands => cases hid

/-- An operation that fails, at any point of its program, leaves the registry
as it was.  One that comes out well leaves every calendar but its target as it
was; the next id goes up by one when it makes a calendar, which then has the id
that was free, and else stays. -/
theorem operation_touches_target {r : Registry} (h : r.Reachable) (op : Operation) :
    match op.program.run r with
    | .error e r' => r' = r ∧ r.perform op = .error e
    | .ok () r' =>
        r.perform op = .ok r' ∧ ∀ id ∈ op.target r, Frame id op.creates.toNat r r' ∧
          (op.creates = true →
            (∀ c ∈ r.calendars.rows, c.id ≠ id) ∧ ∃ c ∈ r'.calendars.rows, c.id = id) := by
  rw [op.run_program]
  cases hperform : r.perform op with
  | error e => exact ⟨rfl, rfl⟩
  | ok r' =>
      refine ⟨rfl, ?_⟩
      intro id hid
      refine ⟨frame_of_perform hperform hid, ?_⟩
      intro hop
      obtain ⟨_, _, _, hr⟩ := add_of_perform hop hperform
      obtain ⟨-, hmade⟩ := frame_of_add hr
      obtain rfl : r.nextId = id := Option.some.inj ((op.target_of_creates hop r).symm.trans hid)
      refine ⟨?_, hmade⟩
      intro c hc heq
      exact Nat.ne_of_lt (h.wellFormed.fresh c hc) (congrArg CalendarId.value heq)

/-- A name that is taken costs no id; with another one, a copy is made beside
the calendars that are there. -/
theorem operation_touches_target_derived :
    (Operation.copy ⟨2, by decide⟩ " Winter ").program.run (empty.after derivedHistory) =
        .error (.duplicateName "Winter") (empty.after derivedHistory) ∧
      ∃ r', (Operation.copy ⟨2, by decide⟩ "Autumn").program.run (empty.after derivedHistory) =
          .ok () r' ∧ Frame ⟨4, by decide⟩ 1 (empty.after derivedHistory) r' := by
  have hrefused : (empty.after derivedHistory).perform (.copy ⟨2, by decide⟩ " Winter ") =
      .error (.duplicateName "Winter") := by decide +kernel
  have hdone : ((empty.after derivedHistory).perform
      (.copy ⟨2, by decide⟩ "Autumn")).toOption.isSome = true := by decide +kernel
  have htarget : (Operation.copy ⟨2, by decide⟩ "Autumn").target (empty.after derivedHistory) =
      some ⟨4, by decide⟩ := by decide +kernel
  have htouched := operation_touches_target (Reachable.empty.after derivedHistory)
    (.copy ⟨2, by decide⟩ "Autumn")
  rw [Operation.run_program, Operation.run_program, hrefused]
  rw [Operation.run_program] at htouched
  cases hperform : (empty.after derivedHistory).perform (.copy ⟨2, by decide⟩ "Autumn") with
  | error e => simp [hperform, Except.toOption] at hdone
  | ok r' =>
      rw [hperform] at htouched
      exact ⟨rfl, r', rfl, (htouched.2 _ htarget).1⟩

end Registry

end WorkingTime
