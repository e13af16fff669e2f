/-
Operations as programs that write into what they are given.

An operation of the library makes a new registry, so that a failure cannot leave
anything behind.  The same can be had from a program that writes into its state
step by step, at times in several places, if it fails only before it first
writes, or after a write that changed nothing.  Here are such programs for
versions, calendars and registries, each with the checks and the writes of an
operation one after the other.  Each ends as its operation does, and when that
is a failure, its state is what it was: `Calendar.Edit.run_program` says so of
the edits of a calendar, `Registry.run_addInPlace` and its likes of the rest.
-/
import WorkingTime.Proofs.Registry.Reachable

namespace WorkingTime

/-! ## Programs that write -/

section Programs

variable {ε σ α β : Type}

/-- Looks at the state and fails or goes on; writes nothing. -/
def check (look : σ → Except ε α) : EStateM ε σ α := fun s =>
  match look s with
  | .ok a => .ok a s
  | .error e => .error e s

/-- How a program that begins in a state ends when it does all it has to do,
or fails and leaves the state as it was. -/
def settle (s : σ) : Except ε (α × σ) → EStateM.Result ε σ α
  | .ok (a, s') => .ok a s'
  | .error e => .error e s

variable {look : σ → Except ε α} {p : α → EStateM ε σ β} {s : σ}

theorem run_check_of_ok {a : α} (h : look s = .ok a) :
    (check look >>= p).run s = (p a).run s := by
  have hcheck : (check look).run s = .ok a s := by
    simp only [EStateM.run, check, h]
  rw [EStateM.run_bind, hcheck]

theorem run_check_of_error {e : ε} (h : look s = .error e) :
    (check look >>= p).run s = .error e s := by
  have hcheck : (check look).run s = .error e s := by
    simp only [EStateM.run, check, h]
  rw [EStateM.run_bind, hcheck]

/-- A check before a program that leaves nothing behind when it fails. -/
theorem run_check_bind {f : α → Except ε (β × σ)}
    (h : ∀ a, look s = .ok a → (p a).run s = settle s (f a)) :
    (check look >>= p).run s = settle s (look s >>= f) := by
  cases hlook : look s with
  | error e => exact run_check_of_error hlook
  | ok a => exact (run_check_of_ok hlook).trans (h a hlook)

/-- A program that cannot fail, after one that leaves nothing behind when it
fails. -/
theorem run_bind_write {q : EStateM ε σ α} {answer : Except ε (α × σ)} {f : α × σ → β × σ}
    (hq : q.run s = settle s answer)
    (hp : ∀ x : α × σ, (p x.1).run x.2 = .ok (f x).1 (f x).2) :
    (q >>= p).run s = settle s (f <$> answer) := by
  rw [EStateM.run_bind, hq]
  cases answer with
  | error e => rfl
  | ok x => exact hp x

theorem run_bind_pure {q : EStateM ε σ α} {answer : Except ε (α × σ)}
    (hq : q.run s = settle s answer) :
    (q >>= fun _ => pure ()).run s = settle s (((), ·) <$> (·.2) <$> answer) := by
  rw [run_bind_write (p := fun _ => pure ()) (f := fun x => ((), x.2)) hq fun _ => rfl]
  cases answer <;> rfl

end Programs

/-! ## Programs on a version -/

namespace Version

def addExceptionInPlace (e : ExceptionDay) : EStateM RuleError Version Unit := do
  check fun v =>
    match v.validFrom.filter (e.date < ·) with
    | some start => .error (.exceptionBeforeVersion e.date start)
    | none => .ok ()
  check fun v =>
    if (v.exceptionOn? e.date).isSome then .error (.duplicateException e.date) else .ok ()
  modify fun v => { v with exceptions := v.exceptions.insert e }

def removeExceptionInPlace (d : Date) : EStateM RuleError Version ExceptionDay := do
  let taken := (← get).exceptionOn? d
  modify fun v => { v with exceptions := v.exceptions.erase d.index }
  match taken with
  | some e => return e
  | none => throw (.exceptionNotFound d)

def updateExceptionInPlace (d : Date) (hours : Int) (category : Category) :
    EStateM RuleError Version Unit := do
  let e ← check fun _ => ExceptionDay.enter d hours category
  check fun v => if (v.exceptionOn? d).isSome then .ok () else .error (.exceptionNotFound d)
  modify fun v => { v with exceptions := v.exceptions.insert e }

theorem run_addExceptionInPlace (e : ExceptionDay) (v : Version) :
    (addExceptionInPlace e).run v = settle v (((), ·) <$> v.addException e) := by
  rw [addException]
  split
  next start hstart => exact run_check_of_error (by rw [hstart])
  next hstart =>
    rw [addExceptionInPlace, run_check_of_ok (by rw [hstart])]
    split
    next htaken => exact run_check_of_error (if_pos htaken)
    next htaken => exact run_check_of_ok (if_neg htaken)

theorem run_removeExceptionInPlace (d : Date) (v : Version) :
    (removeExceptionInPlace d).run v = settle v (v.removeException d) := by
  simp only [removeExceptionInPlace, EStateM.run_bind, EStateM.run_get, EStateM.run_modify]
  rw [removeException]
  cases htaken : v.exceptionOn? d with
  | some e => rfl
  | none =>
      have hsame : v.exceptions.erase d.index = v.exceptions :=
        Table.erase_eq_self_of_find?_eq_none htaken
      rw [hsame]
      rfl

theorem run_updateExceptionInPlace (d : Date) (hours : Int) (category : Category) (v : Version) :
    (updateExceptionInPlace d hours category).run v =
      settle v (((), ·) <$> v.updateException d hours category) := by
  rw [updateExceptionInPlace, updateException, map_bind]
  refine run_check_bind ?_
  intro e _
  split
  next hthere => exact run_check_of_ok (if_pos hthere)
  next hthere => exact run_check_of_error (if_neg hthere)

end Version

/-! ## Programs on a calendar -/

namespace Calendar

variable {α : Type}

def onCurrent (p : EStateM RuleError Version α) : EStateM RuleError Calendar α := fun c =>
  match p.run c.current with
  | .ok a v => .ok a { c with current := v }
  | .error e v => .error e { c with current := v }

def rewriteVersion (i : Nat) (f : Version → Version) (c : Calendar) : Calendar :=
  { c with
    superseded := c.superseded.modify i f
    current := if i = c.superseded.length then f c.current else c.current }

def setRuleInPlace (w : Weekday) (rule : DayRule) : EStateM RuleError Calendar Unit :=
  onCurrent (modify (·.setRule w rule))

/-- Closes the current version on a date, then puts one with the same rules
behind it. -/
def newVersionInPlace (start : Date) : EStateM RuleError Calendar Unit := do
  check fun c =>
    match c.current.validFrom.filter (start ≤ ·) with
    | some first => .error (.versionStart start first)
    | none => .ok ()
  let successor := (← get).current.successor start
  onCurrent (modify fun v => { v with expires := some start })
  modify fun c => { c with superseded := c.superseded ++ [c.current], current := successor }

/-- Writes a boundary as the end of one version, then as the start of the next. -/
def writeBoundary (i : Nat) (d : Date) : EStateM RuleError Calendar Unit := do
  modify (rewriteVersion i fun v => { v with expires := some d })
  modify (rewriteVersion (i + 1) fun v => { v with validFrom := some d })

def moveBoundaryInPlace (i : Nat) (earlier : Version) (d : Date) :
    EStateM RuleError Calendar Unit := do
  check fun c =>
    let later := c.superseded[i + 1]?.getD c.current
    if isBetween earlier.validFrom d later.expires then .ok ()
    else .error (.boundaryOutOfOrder d earlier.validFrom later.expires)
  writeBoundary i d

namespace Edit

def program : Edit → EStateM RuleError Calendar Unit
  | setHours w hours => do
      let rule ← check fun _ => DayRule.enter hours
      setRuleInPlace w rule
  | setInherited w => setRuleInPlace w .inherited
  | setHoursPerDay hours => do
      let rules ← check fun _ => hours.mapM fun (w, entered) => do
        return (w, ← DayRule.enter entered)
      rules.forM fun (w, rule) => setRuleInPlace w rule
  | addException e => onCurrent (Version.addExceptionInPlace e)
  | removeException d => do
      let _ ← onCurrent (Version.removeExceptionInPlace d)
  | updateException d hours category => onCurrent (Version.updateExceptionInPlace d hours category)
  | newVersion start => newVersionInPlace start
  | setExpires d reference => do
      let (i, earlier) ← check fun c =>
        let i := c.versionIndexAt reference
        match c.superseded[i]? with
        | some earlier => .ok (i, earlier)
        | none => .error (.noNextVersion reference)
      moveBoundaryInPlace i earlier d
  | setValidFrom d reference => do
      let (i, earlier) ← check fun c =>
        let i := c.versionIndexAt reference
        match i, c.superseded[i - 1]? with
        | j + 1, some earlier => .ok (j, earlier)
        | _, _ => .error (.noPreviousVersion reference)
      moveBoundaryInPlace i earlier d

end Edit

/-! ### All or nothing -/

theorem run_onCurrent {p : EStateM RuleError Version α} {c : Calendar}
    {answer : Except RuleError (α × Version)} (h : p.run c.current = settle c.current answer) :
    (onCurrent p).run c = settle c ((fun x => (x.1, { c with current := x.2 })) <$> answer) := by
  simp only [onCurrent, EStateM.run] at h ⊢
  rw [h]
  cases answer <;> rfl

theorem run_forM_setRuleInPlace (rules : List (Weekday × DayRule)) (c : Calendar) :
    (rules.forM fun r => setRuleInPlace r.1 r.2).run c =
      .ok () { c with current := { c.current with week := c.current.week.setAll rules } } := by
  induction rules generalizing c with
  | nil => rfl
  | cons rule rules ih => exact ih _

theorem run_newVersionInPlace (start : Date) (c : Calendar) :
    (newVersionInPlace start).run c = settle c (((), ·) <$> c.newVersion start) := by
  rw [newVersion]
  split
  next first hstart => exact run_check_of_error (by rw [hstart])
  next hstart => exact run_check_of_ok (by rw [hstart])

theorem run_writeBoundary {c : Calendar} {i : Nat} (d : Date) (hi : i < c.superseded.length) :
    (writeBoundary i d).run c = .ok () (c.withBoundary i d) := by
  have hwritten : rewriteVersion (i + 1) (fun v => { v with validFrom := some d })
      (rewriteVersion i (fun v => { v with expires := some d }) c) = c.withBoundary i d := by
    simp only [rewriteVersion, withBoundary, List.length_modify, if_neg (Nat.ne_of_lt hi)]
  rw [← hwritten]
  rfl

theorem run_moveBoundaryInPlace {c : Calendar} {i : Nat} {earlier : Version} (d : Date)
    (hi : c.superseded[i]? = some earlier) :
    (moveBoundaryInPlace i earlier d).run c =
      settle c (((), ·) <$> c.moveBoundary i earlier d) := by
  have hlen : i < c.superseded.length := (List.getElem?_eq_some_iff.mp hi).1
  rw [moveBoundary]
  split
  next hbetween =>
    calc (moveBoundaryInPlace i earlier d).run c
        = (writeBoundary i d).run c := run_check_of_ok (if_pos hbetween)
      _ = .ok () (c.withBoundary i d) := run_writeBoundary d hlen
  next hbetween => exact run_check_of_error (if_neg hbetween)

theorem Edit.run_program (e : Edit) (c : Calendar) :
    e.program.run c = settle c (((), ·) <$> e.run c) := by
  cases e with
  | setHours w hours =>
      rw [program, run, Calendar.setHours, map_bind]
      refine run_check_bind ?_
      intro rule _
      rfl
  | setInherited w => rfl
  | setHoursPerDay hours =>
      rw [program, run, Calendar.setHoursPerDay, map_bind]
      refine run_check_bind ?_
      intro rules _
      exact run_forM_setRuleInPlace rules c
  | addException e =>
      rw [program, run_onCurrent (Version.run_addExceptionInPlace e c.current), run,
        Calendar.addException]
      cases c.current.addException e <;> rfl
  | removeException d =>
      have hrun := run_onCurrent (Version.run_removeExceptionInPlace d c.current)
      rw [program, run_bind_pure hrun, run, Calendar.removeException]
      cases c.current.removeException d <;> rfl
  | updateException d hours category =>
      rw [program, run_onCurrent (Version.run_updateExceptionInPlace d hours category c.current),
        run, Calendar.updateException]
      cases c.current.updateException d hours category <;> rfl
  | newVersion start => exact run_newVersionInPlace start c
  | setExpires d reference =>
      rw [program, run, Calendar.setExpires]
      split
      next earlier hi =>
        rw [← run_moveBoundaryInPlace d hi]
        refine run_check_of_ok (a := (c.versionIndexAt reference, earlier)) ?_
        simp only [hi]
      next hi =>
        refine run_check_of_error ?_
        simp only [hi]
  | setValidFrom d reference =>
      rw [program, run, Calendar.setValidFrom]
      split
      next j earlier hindex hi =>
        rw [hindex, Nat.succ_sub_one] at hi
        rw [← run_moveBoundaryInPlace d hi]
        refine run_check_of_ok (a := (j, earlier)) ?_
        simp only [hindex, Nat.succ_sub_one, hi]
      next hnone =>
        refine run_check_of_error ?_
        dsimp only
        split
        next j earlier hindex hi => exact (hnone j earlier hindex hi).elim
        · rfl

end Calendar

/-! ## Programs on a registry -/

namespace Registry

variable {α : Type}

def onCalendar (id : CalendarId) (p : EStateM RuleError Calendar α) :
    EStateM RegistryError Registry α := do
  let c ← check (·.get id)
  fun r =>
    match p.run c with
    | .ok a c' => .ok a (r.put c')
    | .error e c' => .error (.rule e) (r.put c')

def takeId : EStateM RegistryError Registry CalendarId := do
  let next ← check fun r =>
    match r.nextId.next? with
    | some next => .ok next
    | none => .error (.noRoomAfter r.nextId)
  let id := (← MonadState.get).nextId
  modify fun r => { r with nextId := next }
  return id

/-- Takes an id, then puts a calendar under it. -/
def addInPlace (name : String) (v : Version) : EStateM RegistryError Registry CalendarId := do
  let name ← check (·.availableName name)
  let id ← takeId
  modify fun r => r.put (.single id name v)
  return id

def deriveInPlace (parent : CalendarId) (name : String) :
    EStateM RegistryError Registry CalendarId := do
  let _ ← check (·.get parent)
  addInPlace name (.derivedFrom parent)

def copyInPlace (source : CalendarId) (name : String) :
    EStateM RegistryError Registry CalendarId := do
  let c ← check (·.get source)
  addInPlace name c.current

def renameInPlace (id : CalendarId) (text : String) : EStateM RegistryError Registry Unit := do
  let name ← check fun _ => checkName text
  check fun r =>
    if r.calendars.rows.any fun c => c.id != id && c.name == name then
      .error (.duplicateName name)
    else .ok ()
  onCalendar id (modify fun c => { c with name })

/-- Takes a calendar out, and fails if there was none. -/
def removeInPlace (id : CalendarId) : EStateM RegistryError Registry Calendar := do
  let _ ← check (·.get id)
  check fun r =>
    match r.dependant? id with
    | some other => .error (.parentInUse id other.id)
    | none => .ok ()
  let taken := (← MonadState.get).get id
  modify fun r => { r with calendars := r.calendars.erase id.value }
  match taken with
  | .ok c => return c
  | .error e => throw e

def setParentInPlace (id : CalendarId) (parent : Option CalendarId) :
    EStateM RegistryError Registry Unit := do
  let _ ← check (·.get id)
  if let some parent := parent then
    let _ ← check (·.get parent)
    check fun r => if r.reaches parent id then .error (.cyclicParent id parent) else .ok ()
  onCalendar id (modify (·.setParent parent))

/-- Makes a registry apart from the present one, and puts it in place when it
is complete. -/
def onCopy (f : Registry → Except RegistryError Registry) :
    EStateM RegistryError Registry Unit := do
  let r ← check f
  set r

/-! ### All or nothing -/

theorem run_onCalendar {id : CalendarId} {p : EStateM RuleError Calendar α}
    {f : Calendar → Except RuleError (α × Calendar)} (h : ∀ c, p.run c = settle c (f c))
    (r : Registry) :
    (onCalendar id p).run r = settle r (do
      let c ← r.get id
      let x ← asRule (f c)
      return (x.1, r.put x.2)) := by
  refine run_check_bind ?_
  intro c hc
  have hsame : r.put c = r := by
    rw [put, Table.insert_eq_self_of_mem (get_eq_ok_iff.mp hc).1]
  simp only [EStateM.run] at h ⊢
  rw [h]
  cases f c with
  | error e => exact congrArg (EStateM.Result.error (RegistryError.rule e)) hsame
  | ok x => rfl

theorem run_onCalendar_modify (id : CalendarId) (f : Calendar → Calendar) (r : Registry) :
    (onCalendar id (modify f)).run r = settle r ((fun c => ((), r.put (f c))) <$> r.get id) :=
  run_onCalendar (f := fun c => .ok ((), f c)) (fun _ => rfl) r

theorem run_takeId (r : Registry) : takeId.run r = settle r r.allocateId := by
  rw [allocateId]
  cases hnext : r.nextId.next? with
  | none => exact run_check_of_error (by simp only [hnext])
  | some next => exact run_check_of_ok (a := next) (by simp only [hnext])

theorem run_addInPlace (text : String) (v : Version) (r : Registry) :
    (addInPlace text v).run r = settle r (r.add text v) := by
  refine run_check_bind ?_
  intro name _
  rw [run_bind_write (f := fun x => (x.1, x.2.put (.single x.1 name v))) (run_takeId r) fun _ => rfl]
  cases r.allocateId <;> rfl

theorem run_deriveInPlace (parent : CalendarId) (text : String) (r : Registry) :
    (deriveInPlace parent text).run r = settle r (r.derive parent text) := by
  rw [derive, Answer.discard_bind]
  exact run_check_bind fun _ _ => run_addInPlace text _ r

theorem run_copyInPlace (source : CalendarId) (text : String) (r : Registry) :
    (copyInPlace source text).run r = settle r (r.copy source text) :=
  run_check_bind fun c _ => run_addInPlace text c.current r

theorem run_renameInPlace (id : CalendarId) (text : String) (r : Registry) :
    (renameInPlace id text).run r = settle r (((), ·) <$> r.rename id text) := by
  rw [renameInPlace, rename, map_bind]
  refine run_check_bind ?_
  intro name _
  split
  next htaken => exact run_check_of_error (if_pos htaken)
  next htaken =>
    refine Eq.trans (run_check_of_ok (if_neg htaken)) ?_
    rw [run_onCalendar_modify]
    cases r.get id <;> rfl

theorem run_removeInPlace (id : CalendarId) (r : Registry) :
    (removeInPlace id).run r = settle r (r.remove id) := by
  refine run_check_bind ?_
  intro c hc
  cases hdependant : r.dependant? id with
  | some other => exact run_check_of_error (by simp only [hdependant])
  | none =>
      refine (run_check_of_ok (a := ()) (by simp only [hdependant])).trans ?_
      simp only [EStateM.run_bind, EStateM.run_get, EStateM.run_modify, hc]
      rfl

theorem run_setParentInPlace (id : CalendarId) (parent : Option CalendarId) (r : Registry) :
    (setParentInPlace id parent).run r = settle r (((), ·) <$> r.setParent id parent) := by
  rw [setParentInPlace, setParent, map_bind]
  refine run_check_bind ?_
  intro c hc
  have hwrite : ∀ p, (onCalendar id (modify (·.setParent p))).run r =
      .ok () (r.put (c.setParent p)) := by
    intro p
    rw [run_onCalendar_modify, hc]
    rfl
  cases parent with
  | none => exact hwrite none
  | some p =>
      simp only [Answer.discard_bind, map_bind]
      refine run_check_bind ?_
      intro k _
      split
      next hback => exact run_check_of_error (if_pos hback)
      next hback => exact Eq.trans (run_check_of_ok (if_neg hback)) (hwrite (some p))

theorem run_onCopy (f : Registry → Except RegistryError Registry) (r : Registry) :
    (onCopy f).run r = settle r (((), ·) <$> f r) := by
  cases hf : f r with
  | error e => exact run_check_of_error hf
  | ok r' => exact run_check_of_ok hf

end Registry

end WorkingTime
