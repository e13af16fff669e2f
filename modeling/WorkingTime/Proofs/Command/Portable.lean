/-
The same commands in two registries.

A command goes by names, so it can be put to any registry.  In registries that
differ in their ids alone it stands for operations on matching calendars
(`operation_renumbered`) and therefore ends alike (`apply_renumbered`); a batch
does so command by command, with the matching of calendars growing along with
the calendars that are made (`applyAll_renumbered`).  The one thing that ids decide
is when they run out.
-/
import WorkingTime.Proofs.Command.Operation
import WorkingTime.Proofs.Registry.Renumbered

namespace WorkingTime

/-- One operation is the other one with the matching ids, and this one names
calendars that are there. -/
structure Operation.Matched (f : CalendarId → CalendarId) (r : Registry) (op op' : Operation) :
    Prop where
  eq_renumber : op' = op.renumber f
  there : ∀ id ∈ op.named, ∃ c ∈ r.calendars.rows, c.id = id

namespace Registry

variable {f : CalendarId → CalendarId} {r r' : Registry}

/-! ## One command -/

/-- Looking up the one name that an operation is in want of. -/
theorem map_idOf_renumbered (h : Renumbered f r r') (hlabelled : r.Labelled) (name : String)
    {make : CalendarId → Operation} (hrenumber : ∀ id, (make id).renumber f = make (f id))
    (hnamed : ∀ id, (make id).named = [id]) :
    Answer.Alike (Operation.Matched f r) (make <$> r.idOf name) (make <$> r'.idOf name) := by
  refine (h.idOf hlabelled name).map ?_
  rintro a _ ⟨rfl, ha⟩
  refine ⟨(hrenumber a).symm, ?_⟩
  rw [hnamed a, List.forall_mem_singleton]
  exact ha

theorem mapM_idOf_renumbered (h : Renumbered f r r') (hlabelled : r.Labelled)
    (name : Option String) :
    Answer.Alike (fun p p' => p' = p.map f ∧ ∀ id ∈ p, ∃ c ∈ r.calendars.rows, c.id = id)
      (name.mapM r.idOf) (name.mapM r'.idOf) := by
  cases name with
  | none => exact .ok ⟨rfl, by simp⟩
  | some name =>
      rw [Option.mapM_some, Option.mapM_some]
      refine (h.idOf hlabelled name).map ?_
      rintro p _ ⟨rfl, hp⟩
      exact ⟨rfl, fun id hid => Option.some.inj hid ▸ hp⟩

theorem operation_renumbered (h : Renumbered f r r') (hlabelled : r.Labelled)
    (command : Command) :
    Answer.Alike (Operation.Matched f r) (command.operation r) (command.operation r') := by
  cases command
  case createCalendar name => exact .ok ⟨rfl, by simp [Operation.named]⟩
  case addException calendar date hours category =>
    -- the hours are checked between looking up and acting, and go by no id
    cases hentered : asRule (ExceptionDay.enter date hours.value category) with
    | error e =>
        simp only [Command.operation, hentered]
        exact (h.idOf hlabelled calendar).bind fun _ _ _ _ _ => .error
    | ok e =>
        simp only [Command.operation, hentered]
        exact map_idOf_renumbered h hlabelled calendar (fun _ => rfl) fun _ => rfl
  case setParent calendar parent =>
    refine (h.idOf hlabelled calendar).bind ?_
    rintro a _ - - ⟨rfl, ha⟩
    refine (mapM_idOf_renumbered h hlabelled parent).bind ?_
    rintro p _ - - ⟨rfl, hp⟩
    refine .ok ⟨rfl, ?_⟩
    intro id hid
    rcases List.mem_cons.mp hid with rfl | hid
    · exact ha
    · exact hp id (Option.mem_toList.mp hid)
  all_goals exact map_idOf_renumbered h hlabelled _ (fun _ => rfl) fun _ => rfl

/-- A command ends alike in matching registries, and leaves them matching. -/
theorem apply_renumbered (h : r.Reachable) (h' : r'.Reachable) (hmatch : Renumbered f r r')
    (hroom : r.nextId.value + 1 < UInt64.size) (hroom' : r'.nextId.value + 1 < UInt64.size)
    (command : Command) :
    Answer.Alike
      (fun x x' => ∃ g, (∀ id, id ≠ r.nextId → g id = f id) ∧ Renumbered g x.1 x'.1)
      (r.apply command) (r'.apply command) := by
  have hperform : Answer.Alike
      (fun x x' => ∃ g, (∀ id, id ≠ r.nextId → g id = f id) ∧ Renumbered g x x')
      ((·.1) <$> r.apply command) ((·.1) <$> r'.apply command) := by
    rw [apply_eq_perform, apply_eq_perform]
    refine (operation_renumbered hmatch h.labelled command).bind ?_
    rintro op _ hop - ⟨rfl, hnamed⟩
    exact hmatch.perform h.wellFormed h'.wellFormed hroom hroom' (target_of_operation hop).1 hnamed
  exact hperform.of_map

theorem nextId_of_apply {command : Command} {action : Action}
    (h : r.apply command = .ok (r', action)) :
    r.nextId.value ≤ r'.nextId.value ∧ r'.nextId.value ≤ r.nextId.value + 1 := by
  obtain ⟨op, hop, hperform⟩ := operation_of_apply h
  obtain ⟨⟨id, hid⟩, -⟩ := target_of_operation hop
  have htaken := (frame_of_perform hperform hid).nextId
  have hone := op.creates.toNat_le
  omega

/-! ## Batches -/

/-- A batch ends alike in matching registries that have an id for each of its
commands, and leaves them matching: the ids that were given before are matched
as they were. -/
theorem applyAll_renumbered (h : r.Reachable) (h' : r'.Reachable) (hmatch : Renumbered f r r')
    (commands : List Command) (hroom : r.nextId.value + commands.length < UInt64.size)
    (hroom' : r'.nextId.value + commands.length < UInt64.size) :
    Answer.Alike
      (fun x x' => ∃ g, (∀ id, id.value < r.nextId.value → g id = f id) ∧ Renumbered g x.1 x'.1)
      (r.applyAll commands) (r'.applyAll commands) := by
  induction commands generalizing f r r' with
  | nil => exact .ok ⟨f, fun _ _ => rfl, hmatch⟩
  | cons command rest ih =>
      rw [List.length_cons] at hroom hroom'
      have hfirst := apply_renumbered h h' hmatch (by omega) (by omega) command
      refine hfirst.bind ?_
      rintro ⟨r₁, action⟩ ⟨r₁', action'⟩ happly happly' ⟨g, hg, hmatch₁⟩
      have hnext := nextId_of_apply happly
      have hnext' := nextId_of_apply happly'
      have hroom₁ : r₁.nextId.value + rest.length < UInt64.size := by omega
      have hroom₁' : r₁'.nextId.value + rest.length < UInt64.size := by omega
      have hrest := ih (h.apply happly) (h'.apply happly') hmatch₁ hroom₁ hroom₁'
      refine hrest.map ?_
      rintro x x' ⟨g₁, hg₁, hmatch₂⟩
      refine ⟨g₁, ?_, hmatch₂⟩
      intro id hid
      have hold : id ≠ r.nextId := by
        rintro rfl
        exact Nat.lt_irrefl _ hid
      exact (hg₁ id (Nat.lt_of_lt_of_le hid hnext.1)).trans (hg id hold)

/-- Commands are portable: put to two registries that differ in their ids alone
and have an id left for each of them, they succeed together or fail together, and
so the first that fails is the same one.  What they make differs in ids alone
again, where the calendars that were there have the ids that matched before, and a
name finds calendars with the same answers. -/
theorem commands_portable (h : r.Reachable) (h' : r'.Reachable) (hmatch : Renumbered f r r')
    (commands : List Command) (hroom : r.nextId.value + commands.length < UInt64.size)
    (hroom' : r'.nextId.value + commands.length < UInt64.size) (n : Nat) :
    Answer.Alike
      (fun x x' => ∃ g, (∀ c ∈ r.calendars.rows, g c.id = f c.id) ∧ Renumbered g x.1 x'.1 ∧
        ∀ name, Answer.Alike (fun a a' => a' = g a ∧ SameAnswers x.1 a x'.1 a')
          (x.1.idOf name) (x'.1.idOf name))
      (r.applyAll (commands.take n)) (r'.applyAll (commands.take n)) := by
  have hshorter : (commands.take n).length ≤ commands.length := List.length_take_le' n commands
  have hbatch := applyAll_renumbered h h' hmatch (commands.take n) (by omega) (by omega)
  refine hbatch.mono ?_
  rintro ⟨r₁, actions⟩ ⟨r₁', actions'⟩ happly happly' ⟨g, hg, hmatch₁⟩
  have h₁ := h.applyAll happly
  have h₁' := h'.applyAll happly'
  refine ⟨g, fun c hc => hg c.id (h.wellFormed.fresh c hc), hmatch₁, ?_⟩
  intro name
  refine (hmatch₁.idOf h₁.labelled name).mono ?_
  rintro a _ - - ⟨rfl, c, hc, rfl⟩
  exact ⟨rfl, hmatch₁.sameAnswers h₁.wellFormed h₁'.wellFormed hc⟩

/-- The calendars of `derivedHistory`, of which the last two were made in the other
order. -/
def reorderedHistory : List Operation :=
  [.create "Standard", .edit empty.nextId (.setHours .monday (some 8)),
   .derive empty.nextId "Winter", .derive empty.nextId "Summer",
   .edit ⟨3, by decide⟩ (.newVersion summerStart)]

/-- Commands of which the last one is refused. -/
def seasonCommands : List Command :=
  [.copyCalendar "Winter" "Spring", .removeCalendar "Winter",
   .setHours "Standard" .monday (some ⟨6, by decide⟩), .removeCalendar "Standard"]

theorem commands_portable_reordered :
    (∃ x x' a a', (empty.after derivedHistory).applyAll (seasonCommands.take 3) = .ok x ∧
      (empty.after reorderedHistory).applyAll (seasonCommands.take 3) = .ok x' ∧
      x.1.idOf "Spring" = .ok a ∧ x'.1.idOf "Spring" = .ok a' ∧
      x.1.capacityAt a ⟨3652425, by decide⟩ = .ok 6 ∧ SameAnswers x.1 a x'.1 a') ∧
      (empty.after derivedHistory).applyAll (seasonCommands.take 4) =
        .error (.parentInUse ⟨1, by decide⟩ ⟨2, by decide⟩) ∧
      ∃ e, (empty.after reorderedHistory).applyAll (seasonCommands.take 4) = .error e := by
  have hmatch : Renumbered (Equiv.swap ⟨2, by decide⟩ ⟨3, by decide⟩)
      (empty.after derivedHistory) (empty.after reorderedHistory) :=
    ⟨by decide +kernel, by decide +kernel, by decide +kernel⟩
  have hportable := commands_portable (Reachable.empty.after derivedHistory)
    (Reachable.empty.after reorderedHistory) hmatch seasonCommands (by decide +kernel)
    (by decide +kernel)
  have hrefused : (empty.after derivedHistory).applyAll (seasonCommands.take 4) =
      .error (.parentInUse ⟨1, by decide⟩ ⟨2, by decide⟩) := by decide +kernel
  obtain ⟨x, hx, htest⟩ := Answer.exists_ok_of_any
    (x := (empty.after derivedHistory).applyAll (seasonCommands.take 3))
    (p := fun x => (x.1.idOf "Spring").toOption.any fun a =>
      x.1.capacityAt a ⟨3652425, by decide⟩ == .ok 6) (by decide +kernel)
  obtain ⟨a, ha, hcapacity⟩ := Answer.exists_ok_of_any htest
  have hfirst := hportable 3
  have hwhole := hportable 4
  rw [hx] at hfirst
  rw [hrefused] at hwhole
  obtain ⟨x', hx', g, -, -, hnames⟩ := hfirst.of_ok
  have hspring := hnames "Spring"
  rw [ha] at hspring
  obtain ⟨a', ha', -, hsame⟩ := hspring.of_ok
  exact ⟨⟨x, x', a, a', hx, hx', ha, ha', beq_iff_eq.mp hcapacity, hsame⟩, hrefused,
    hwhole.of_error⟩

end Registry

end WorkingTime
