/-
Runs: operations one after the other, with saving and loading in between.

Loading what was just saved is either refused or gives the registry back
(`step_reload`), so for whoever holds the registry it is no step at all.

What is refused, a batch with all its commands for one, leaves no trace, and a
batch that is accepted is so many operations.  `spelledOut` leaves out the ones and
spells out the others, and the run arrives where it did (`run_spelledOut`).  The
registries of a run spelled out are all that it passes through, those between its
steps (`exists_run_spelledOut`) and those between the commands of a batch, and each
makes the next by a single operation that comes out well (`smooth_after`).
-/
import WorkingTime.Proofs.Registry.Saved

namespace WorkingTime

/-- A step of a run: an operation, or saving the registry, in the pretty layout
or the compact one, and loading what was saved in its place. -/
inductive Step where
  | operation (op : Operation)
  | reload (pretty : Bool)

namespace Registry

def document (r : Registry) (pretty : Bool) : String :=
  if pretty then r.toJson.pretty else r.toJson.compact

/-- The registry after a step was tried: what is refused, an operation or a
document, changes nothing. -/
def step (r : Registry) : Step → Registry
  | .operation op => r.attempt op
  | .reload pretty =>
      match parse (r.document pretty) with
      | .ok r' => r'
      | .error _ => r

def run (r : Registry) (steps : List Step) : Registry :=
  steps.foldl step r

variable {r : Registry}

theorem parse_document (r : Registry) (pretty : Bool) :
    parse (r.document pretty) = ofReading r.toJson.toReading := by
  cases pretty with
  | false => exact parse_compact _
  | true => exact parse_pretty _

theorem step_reload (h : r.Reachable) (pretty : Bool) : r.step (.reload pretty) = r := by
  have hwf := h.wellFormed
  rw [step, parse_document, ofReading_toJson_eq hwf.chained]
  by_cases hapart : NamesApart r.calendars.rows
  · rw [ofCalendars_of_namesApart hwf h.labelled h.positive hapart]
    rfl
  · obtain ⟨b, -, -, hrefused⟩ := ofCalendars_of_clash h.labelled hapart
    rw [hrefused]
    rfl

theorem Reachable.afterStep (h : r.Reachable) (s : Step) : (r.step s).Reachable := by
  cases s with
  | operation op => exact h.step op
  | reload pretty =>
      rw [step_reload h]
      exact h

theorem Reachable.run (h : r.Reachable) (steps : List Step) : (r.run steps).Reachable := by
  induction steps generalizing r with
  | nil => exact h
  | cons s steps ih => exact ih (h.afterStep s)

/-! ## Runs in single operations -/

/-- The operations of commands, each as the commands before it leave the
registry, up to one whose calendars are not found. -/
def commandOperations (r : Registry) : List Command → List Operation
  | [] => []
  | command :: rest =>
      match command.operation r with
      | .ok op => op :: (r.attempt op).commandOperations rest
      | .error _ => []

/-- The operations, each addressed to one calendar, that an operation comes down
to. -/
def singleOperations (r : Registry) : Operation → List Operation
  | .apply command => r.commandOperations [command]
  | .applyAll commands => r.commandOperations commands
  | op => [op]

/-- A run without the operations that are refused, and with single operations in
place of commands and batches. -/
def spelledOut (r : Registry) : List Step → List Step
  | [] => []
  | .reload pretty :: steps => .reload pretty :: (r.step (.reload pretty)).spelledOut steps
  | .operation op :: steps =>
      match r.perform op with
      | .ok r' => (r.singleOperations op).map .operation ++ r'.spelledOut steps
      | .error _ => r.spelledOut steps

/-- Every operation of a run is addressed to one calendar and comes out well. -/
def Smooth (r : Registry) : List Step → Prop
  | [] => True
  | .reload pretty :: steps => (r.step (.reload pretty)).Smooth steps
  | .operation op :: steps =>
      ∃ id r', op.target r = some id ∧ r.perform op = .ok r' ∧ r'.Smooth steps

theorem run_append (r : Registry) (p q : List Step) : r.run (p ++ q) = (r.run p).run q :=
  List.foldl_append

theorem countP_cons_toNat (p : Step → Bool) (s : Step) (steps : List Step) :
    (s :: steps).countP p = steps.countP p + (p s).toNat := by
  rw [List.countP_cons]
  cases p s <;> rfl

theorem step_operation {r' : Registry} {op : Operation} (h : r.perform op = .ok r') :
    r.step (.operation op) = r' := by
  rw [step, attempt, h]

theorem smooth_append {p q : List Step} : r.Smooth (p ++ q) ↔ r.Smooth p ∧ (r.run p).Smooth q := by
  induction p generalizing r with
  | nil => exact (and_iff_right trivial).symm
  | cons s p ih =>
      cases s with
      | reload pretty => exact ih
      | operation op =>
          constructor
          · rintro ⟨id, r', hid, hop, hrest⟩
            obtain ⟨hp, hq⟩ := ih.mp hrest
            refine ⟨⟨id, r', hid, hop, hp⟩, ?_⟩
            show ((r.step (.operation op)).run p).Smooth q
            rwa [step_operation hop]
          · rintro ⟨⟨id, r', hid, hop, hp⟩, hq⟩
            change ((r.step (.operation op)).run p).Smooth q at hq
            rw [step_operation hop] at hq
            exact ⟨id, r', hid, hop, ih.mpr ⟨hp, hq⟩⟩

theorem smooth_cons {s : Step} {steps : List Step} :
    r.Smooth (s :: steps) ↔ r.Smooth [s] ∧ (r.step s).Smooth steps :=
  smooth_append (p := [s])

theorem commandOperations_of_applyAll {commands : List Command} {r' : Registry}
    {actions : List Action} (h : r.applyAll commands = .ok (r', actions)) :
    r.Smooth ((r.commandOperations commands).map .operation) ∧
      r.run ((r.commandOperations commands).map .operation) = r' := by
  induction commands generalizing r actions with
  | nil =>
      cases h
      exact ⟨trivial, rfl⟩
  | cons command rest ih =>
      obtain ⟨r₁, ⟨action, happly⟩, actions₁, hrest⟩ := applyAll_cons_iff.mp ⟨actions, h⟩
      obtain ⟨op, hop, hperform⟩ := operation_of_apply happly
      obtain ⟨⟨id, hid⟩, -⟩ := target_of_operation hop
      obtain ⟨hsmooth, hrun⟩ := ih hrest
      have hstep : r.attempt op = r₁ := step_operation hperform
      rw [commandOperations, hop, List.map_cons, hstep]
      refine ⟨⟨id, r₁, hid, hperform, hsmooth⟩, ?_⟩
      rw [run, List.foldl_cons, step_operation hperform]
      exact hrun

theorem singleOperations_of_perform {op : Operation} {r' : Registry} (h : r.perform op = .ok r') :
    r.Smooth ((r.singleOperations op).map .operation) ∧
      r.run ((r.singleOperations op).map .operation) = r' := by
  have hsingle : ∀ id, op.target r = some id →
      r.Smooth [.operation op] ∧ r.run [.operation op] = r' :=
    fun id hid => ⟨⟨id, r', hid, h, trivial⟩, step_operation h⟩
  cases op with
  | apply command =>
      obtain ⟨⟨r', action⟩, happly, rfl⟩ := Answer.map_eq_ok_iff.mp h
      have hnil : ∃ actions, r'.applyAll [] = .ok (r', actions) := ⟨[], rfl⟩
      obtain ⟨actions, hall⟩ := applyAll_cons_iff.mpr ⟨r', ⟨action, happly⟩, hnil⟩
      exact commandOperations_of_applyAll hall
  | applyAll commands =>
      obtain ⟨⟨_, actions⟩, hall, rfl⟩ := Answer.map_eq_ok_iff.mp h
      exact commandOperations_of_applyAll hall
  | _ => exact hsingle _ rfl

/-- Spelled out, a run is smooth and arrives where it did. -/
theorem run_spelledOut (r : Registry) (steps : List Step) :
    r.Smooth (r.spelledOut steps) ∧ r.run (r.spelledOut steps) = r.run steps := by
  induction steps generalizing r with
  | nil => exact ⟨trivial, rfl⟩
  | cons s steps ih =>
      cases s with
      | reload pretty => exact ih _
      | operation op =>
          show _ ∧ _ = (r.attempt op).run steps
          rw [spelledOut, attempt]
          cases hop : r.perform op with
          | error e => exact ih r
          | ok r' =>
              obtain ⟨hsmooth, hrun⟩ := singleOperations_of_perform hop
              rw [smooth_append, run_append, hrun]
              exact ⟨⟨hsmooth, (ih r').1⟩, (ih r').2⟩

theorem spelledOut_append (r : Registry) (first second : List Step) :
    r.spelledOut (first ++ second) = r.spelledOut first ++ (r.run first).spelledOut second := by
  induction first generalizing r with
  | nil => rfl
  | cons s first ih =>
      cases s with
      | reload pretty => exact congrArg (.reload pretty :: ·) (ih _)
      | operation op =>
          show r.spelledOut (.operation op :: (first ++ second)) =
            _ ++ ((r.attempt op).run first).spelledOut second
          rw [spelledOut, spelledOut, attempt]
          cases r.perform op with
          | error e => exact ih r
          | ok r' => exact (congrArg (_ ++ ·) (ih r')).trans (List.append_assoc ..).symm

/-- The registries between the steps of a run are among those that it passes
through when it is spelled out. -/
theorem exists_run_spelledOut {steps first : List Step} (h : first <+: steps) :
    ∃ p, p <+: r.spelledOut steps ∧ r.run p = r.run first := by
  obtain ⟨rest, rfl⟩ := h
  refine ⟨r.spelledOut first, ?_, (run_spelledOut r first).2⟩
  rw [spelledOut_append]
  exact List.prefix_append _ _

theorem smooth_after {steps p q : List Step} (h : p ++ q <+: r.spelledOut steps) :
    (r.run p).Smooth q := by
  obtain ⟨rest, hrest⟩ := h
  have hsmooth := (run_spelledOut r steps).1
  rw [← hrest, smooth_append] at hsmooth
  exact (smooth_append.mp hsmooth.1).2

end Registry

end WorkingTime
