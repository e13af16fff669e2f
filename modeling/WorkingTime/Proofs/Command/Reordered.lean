/-
Edits of different calendars in another order.

Seven kinds of commands edit one calendar each and keep its name and its id.  A
batch of such commands does to a calendar what those addressed to it do, one after
the other, whatever stands between them (`applyAll_edits_iff`).  So the order counts
only among commands addressed to one calendar (`edits_reorder`).
-/
import WorkingTime.Proofs.Command.Operation
import WorkingTime.Proofs.Registry.Names

namespace WorkingTime

namespace Command

/-! ## Commands that edit one calendar -/

/-- The edit that a command asks for, when editing one calendar is all it does.
Hours that cannot be kept make no exception to add. -/
def edit? : Command → Option (Except RuleError Calendar.Edit)
  | setHours _ weekday hours => some (.ok (.setHours weekday (hours.map (·.value))))
  | addException _ date hours category =>
      some (.addException <$> ExceptionDay.enter date hours.value category)
  | removeException _ date => some (.ok (.removeException date))
  | updateException _ date hours category =>
      some (.ok (.updateException date hours.value category))
  | newVersion _ effectiveFrom => some (.ok (.newVersion effectiveFrom))
  | setExpiringDate _ date reference => some (.ok (.setExpires date reference))
  | setValidFrom _ date reference => some (.ok (.setValidFrom date reference))
  | _ => none

def addressee (command : Command) : String :=
  Text.trimmed command.subject

/-- The command edits the calendar `c` successfully, and `c'` is what it makes. -/
def Edits (command : Command) (c c' : Calendar) : Prop :=
  ∃ e, command.edit? = some (.ok e) ∧ e.run c = .ok c'

/-- The commands edit the calendar `c` one after the other, all of them
successfully, and `c'` is what they make. -/
def EditsAll : List Command → Calendar → Calendar → Prop
  | [], c, c' => c' = c
  | command :: rest, c, c' => ∃ k, command.Edits c k ∧ EditsAll rest k c'

def addressedTo (name : String) (commands : List Command) : List Command :=
  commands.filter (·.addressee == name)

/-- The same commands in an order in which those addressed to one calendar follow
each other as before. -/
structure Reordered (commands commands' : List Command) : Prop where
  perm : commands.Perm commands'
  order : ∀ command ∈ commands,
    addressedTo command.addressee commands = addressedTo command.addressee commands'

instance (commands commands' : List Command) : Decidable (Reordered commands commands') :=
  decidable_of_iff
    (commands.Perm commands' ∧ ∀ command ∈ commands,
      addressedTo command.addressee commands = addressedTo command.addressee commands')
    ⟨fun h => ⟨h.1, h.2⟩, fun h => ⟨h.perm, h.order⟩⟩

theorem mem_addressedTo {name : String} {commands : List Command} {command : Command} :
    command ∈ addressedTo name commands ↔ command ∈ commands ∧ command.addressee = name := by
  simp [addressedTo]

theorem addressedTo_cons_of_eq {name : String} {command : Command} {rest : List Command}
    (h : command.addressee = name) :
    addressedTo name (command :: rest) = command :: addressedTo name rest :=
  List.filter_cons_of_pos (beq_iff_eq.mpr h)

theorem addressedTo_cons_of_ne {name : String} {command : Command} {rest : List Command}
    (h : command.addressee ≠ name) :
    addressedTo name (command :: rest) = addressedTo name rest :=
  List.filter_cons_of_neg (mt beq_iff_eq.mp h)

theorem Edits.edited {command : Command} {c c' : Calendar} (h : command.Edits c c') :
    c.Edited c' := by
  obtain ⟨e, -, hrun⟩ := h
  exact Calendar.Edit.edited_of_run hrun

theorem Reordered.addressedTo_eq {commands commands' : List Command}
    (h : Reordered commands commands') (name : String) :
    addressedTo name commands = addressedTo name commands' := by
  by_cases hsome : ∃ command ∈ commands, command.addressee = name
  · obtain ⟨command, hcommand, rfl⟩ := hsome
    exact h.order command hcommand
  · have hnone : ∀ l : List Command, l.Perm commands → addressedTo name l = [] := by
      intro l hl
      refine List.eq_nil_iff_forall_not_mem.mpr ?_
      intro command hcommand
      obtain ⟨hmem, haddressee⟩ := mem_addressedTo.mp hcommand
      exact hsome ⟨command, hl.mem_iff.mp hmem, haddressee⟩
    rw [hnone _ (.refl _), hnone _ h.perm.symm]

end Command

namespace Registry

open Command (EditsAll addressedTo addressedTo_cons_of_eq addressedTo_cons_of_ne)

/-! ## One command -/

theorem Labelled.eq_of_name {r : Registry} (h : r.Labelled) {text : String} {c k : Calendar}
    (hc : c ∈ r.calendars.rows) (hk : k ∈ r.calendars.rows) (hname : c.name = Text.trimmed text)
    (hkname : k.name = Text.trimmed text) : c = k := by
  have htrim : Text.trimmed c.name = c.name := by rw [hname, Text.trimmed_trimmed]
  have hproper : IsName c.name := ⟨htrim, fun hempty => h.visible c hc (htrim.trans hempty)⟩
  exact eq_of_id_eq hc hk (h.distinct c hc k hk hproper (hname.trans hkname.symm))

theorem Labelled.find_eq_ok_iff {r : Registry} (h : r.Labelled) {text : String} {c : Calendar} :
    r.find text = .ok c ↔ c ∈ r.calendars.rows ∧ c.name = Text.trimmed text := by
  constructor
  · exact mem_of_find
  · rintro ⟨hc, hname⟩
    obtain ⟨k, hk⟩ := find_of_mem hc hname
    obtain ⟨hmem, hkname⟩ := mem_of_find hk
    rw [hk, h.eq_of_name hc hmem hname hkname]

theorem operation_of_edit? {r : Registry} {command : Command}
    {edit : Except RuleError Calendar.Edit} (h : command.edit? = some edit) :
    command.operation r =
      (do let id ← r.idOf command.subject; return .edit id (← asRule edit)) := by
  cases command
  case addException calendar date hours category =>
    cases h
    simp only [Command.operation, Command.subject]
    cases ExceptionDay.enter date hours.value category <;> rfl
  case setHours | removeException | updateException | newVersion | setExpiringDate | setValidFrom =>
    cases h
    simp only [Command.operation, Command.subject]
    cases r.idOf _ <;> rfl
  all_goals cases h

/-- A command that edits a calendar comes out well when the calendar is there and
the edit does, and puts what the edit makes in its place. -/
theorem apply_edit_iff {r r' : Registry} (h : r.Labelled) {command : Command}
    (hedit : command.edit?.isSome = true) :
    (∃ action, r.apply command = .ok (r', action)) ↔
      ∃ c ∈ r.calendars.rows, c.name = command.addressee ∧
        ∃ c', command.Edits c c' ∧ r' = r.put c' := by
  obtain ⟨edit, hsome⟩ := Option.isSome_iff_exists.mp hedit
  have hfirst : (∃ action, r.apply command = .ok (r', action)) ↔
      (·.1) <$> r.apply command = .ok r' := by
    rw [Answer.map_eq_ok_iff]
    constructor
    · rintro ⟨action, happly⟩
      exact ⟨_, happly, rfl⟩
    · rintro ⟨⟨r₁, action⟩, happly, rfl⟩
      exact ⟨action, happly⟩
  rw [hfirst, apply_eq_perform, operation_of_edit? hsome]
  simp only [Answer.bind_eq_ok_iff, Answer.asRule_eq_ok_iff, Answer.pure_eq_ok_iff, idOf,
    Answer.map_eq_ok_iff, h.find_eq_ok_iff]
  constructor
  · rintro ⟨_, ⟨_, ⟨c, ⟨hc, hname⟩, rfl⟩, e, rfl, rfl⟩, hperform⟩
    obtain ⟨k, hk, hid, c', hrun, rfl⟩ := of_edit hperform
    obtain rfl : k = c := eq_of_id_eq hk hc hid
    exact ⟨k, hk, hname, c', ⟨e, hsome, hrun⟩, rfl⟩
  · rintro ⟨c, hc, hname, c', ⟨e, he, hrun⟩, rfl⟩
    obtain rfl : edit = .ok e := Option.some.inj (hsome.symm.trans he)
    refine ⟨_, ⟨c.id, ⟨c, ⟨hc, hname⟩, rfl⟩, e, rfl, rfl⟩, ?_⟩
    show r.edit c.id e.run = .ok (r.put c')
    rw [edit_eq_put hc, hrun]
    rfl

/-! ## A batch -/

/-- Every calendar is what the commands addressed to it make of it, and nothing
else is there. -/
structure EditedBy (commands : List Command) (r r' : Registry) : Prop where
  nextId : r'.nextId = r.nextId
  calendars : ∀ c ∈ r.calendars.rows, ∃ c' ∈ r'.calendars.rows,
    c'.id = c.id ∧ EditsAll (addressedTo c.name commands) c c'
  others : ∀ c' ∈ r'.calendars.rows, ∃ c ∈ r.calendars.rows, c.id = c'.id

theorem EditedBy.of_addressedTo_eq {commands commands' : List Command} {r r' : Registry}
    (h : EditedBy commands r r')
    (hsame : ∀ name, addressedTo name commands = addressedTo name commands') :
    EditedBy commands' r r' where
  nextId := h.nextId
  calendars c hc := hsame c.name ▸ h.calendars c hc
  others := h.others

theorem editedBy_nil_iff {r r' : Registry} : EditedBy [] r r' ↔ r' = r := by
  constructor
  · rintro ⟨hnext, hcalendars, hothers⟩
    have hkept : ∀ c ∈ r.calendars.rows, c ∈ r'.calendars.rows := by
      intro c hc
      obtain ⟨c', hc', -, hsame⟩ := hcalendars c hc
      obtain rfl : c' = c := hsame
      exact hc'
    have hrows : r'.calendars = r.calendars := by
      refine Table.eq_of_mem_iff fun c' => ⟨?_, hkept c'⟩
      intro hc'
      obtain ⟨c, hc, hid⟩ := hothers c' hc'
      exact eq_of_id_eq (hkept c hc) hc' hid ▸ hc
    cases r
    cases r'
    cases hnext
    cases hrows
    rfl
  · rintro rfl
    exact ⟨rfl, fun c hc => ⟨c, hc, rfl, rfl⟩, fun c hc => ⟨c, hc, rfl⟩⟩

theorem editedBy_cons_iff {r r' : Registry} (h : r.Labelled) {command : Command}
    {rest : List Command} {c : Calendar} (hc : c ∈ r.calendars.rows)
    (hname : c.name = command.addressee) :
    EditedBy (command :: rest) r r' ↔ ∃ k, command.Edits c k ∧ EditedBy rest (r.put k) r' := by
  have hother : ∀ x ∈ r.calendars.rows, x.id ≠ c.id → command.addressee ≠ x.name := by
    intro x hx hid hxname
    exact hid (congrArg Calendar.id (h.eq_of_name hx hc hxname.symm hname))
  constructor
  · rintro ⟨hnext, hcalendars, hothers⟩
    obtain ⟨c', hc', hid, hall⟩ := hcalendars c hc
    rw [addressedTo_cons_of_eq hname.symm] at hall
    obtain ⟨k, hedit, hrest⟩ := hall
    have hk := hedit.edited
    refine ⟨k, hedit, hnext, ?_, ?_⟩
    · intro x hx
      rcases mem_put.mp hx with rfl | ⟨hx, hne⟩
      · exact ⟨c', hc', hid.trans hk.id_eq.symm, hk.name_eq.symm ▸ hrest⟩
      · rw [hk.id_eq] at hne
        rw [← addressedTo_cons_of_ne (hother x hx hne)]
        exact hcalendars x hx
    · intro x hx
      exact (exists_id_put hc hk.id_eq).mpr (hothers x hx)
  · rintro ⟨k, hedit, hnext, hcalendars, hothers⟩
    have hk := hedit.edited
    refine ⟨hnext, ?_, ?_⟩
    · intro x hx
      by_cases hxc : x.id = c.id
      · obtain rfl : x = c := eq_of_id_eq hx hc hxc
        obtain ⟨c', hc', hid, hall⟩ := hcalendars k (mem_put.mpr (.inl rfl))
        rw [hk.name_eq] at hall
        rw [addressedTo_cons_of_eq hname.symm]
        exact ⟨c', hc', hid.trans hk.id_eq, k, hedit, hall⟩
      · rw [addressedTo_cons_of_ne (hother x hx hxc)]
        exact hcalendars x (mem_put.mpr (.inr ⟨hx, hk.id_eq.symm ▸ hxc⟩))
    · intro x hx
      exact (exists_id_put hc hk.id_eq).mp (hothers x hx)

theorem exists_name_put {r : Registry} {c k : Calendar} (hc : c ∈ r.calendars.rows)
    (hk : c.Edited k) (name : String) :
    (∃ x ∈ (r.put k).calendars.rows, x.name = name) ↔ ∃ x ∈ r.calendars.rows, x.name = name := by
  constructor
  · rintro ⟨x, hx, rfl⟩
    rcases mem_put.mp hx with rfl | ⟨hx, -⟩
    · exact ⟨c, hc, hk.name_eq.symm⟩
    · exact ⟨x, hx, rfl⟩
  · rintro ⟨x, hx, rfl⟩
    by_cases hxc : x.id = k.id
    · obtain rfl : x = c := eq_of_id_eq hx hc (hxc.trans hk.id_eq)
      exact ⟨k, mem_put.mpr (.inl rfl), hk.name_eq⟩
    · exact ⟨x, mem_put.mpr (.inr ⟨hx, hxc⟩), rfl⟩

/-- A batch of edits comes out well when the calendars that it names are there and
each of them allows the edits addressed to it, one after the other; what it makes
is made calendar by calendar. -/
theorem applyAll_edits_iff {r r' : Registry} (h : r.Labelled) {commands : List Command}
    (hedits : ∀ command ∈ commands, command.edit?.isSome = true) :
    (∃ actions, r.applyAll commands = .ok (r', actions)) ↔
      (∀ command ∈ commands, ∃ c ∈ r.calendars.rows, c.name = command.addressee) ∧
        EditedBy commands r r' := by
  induction commands generalizing r with
  | nil =>
      rw [editedBy_nil_iff]
      simp [applyAll, eq_comm]
  | cons command rest ih =>
      obtain ⟨hfirst, hrest⟩ := List.forall_mem_cons.mp hedits
      rw [applyAll_cons_iff, List.forall_mem_cons]
      simp only [apply_edit_iff h hfirst]
      constructor
      · rintro ⟨_, ⟨c, hc, hname, k, hedit, rfl⟩, hall⟩
        have hk := hedit.edited
        have hput : (r.put k).Labelled := h.put_of_name hc hk.id_eq hk.name_eq
        obtain ⟨hthere, hby⟩ := (ih hput hrest).mp hall
        refine ⟨⟨⟨c, hc, hname⟩, ?_⟩, (editedBy_cons_iff h hc hname).mpr ⟨k, hedit, hby⟩⟩
        intro x hx
        exact (exists_name_put hc hk _).mp (hthere x hx)
      · rintro ⟨⟨⟨c, hc, hname⟩, hthere⟩, hby⟩
        obtain ⟨k, hedit, hby⟩ := (editedBy_cons_iff h hc hname).mp hby
        have hk := hedit.edited
        have hput : (r.put k).Labelled := h.put_of_name hc hk.id_eq hk.name_eq
        refine ⟨_, ⟨c, hc, hname, k, hedit, rfl⟩, (ih hput hrest).mpr ⟨?_, hby⟩⟩
        intro x hx
        exact (exists_name_put hc hk _).mpr (hthere x hx)

/-- Edits may be put in another order in which those addressed to one calendar
follow each other as before: both batches come out well and make the same registry,
or both are refused. -/
theorem edits_reorder {r : Registry} (h : r.Reachable) {commands commands' : List Command}
    (hedits : ∀ command ∈ commands, command.edit?.isSome = true)
    (horder : Command.Reordered commands commands') :
    Answer.Alike (fun x x' => x'.1 = x.1) (r.applyAll commands) (r.applyAll commands') := by
  have hedits' : ∀ command ∈ commands', command.edit?.isSome = true :=
    fun command hcommand => hedits command (horder.perm.mem_iff.mpr hcommand)
  have hby : ∀ r', EditedBy commands r r' ↔ EditedBy commands' r r' := fun r' =>
    ⟨(·.of_addressedTo_eq horder.addressedTo_eq),
      (·.of_addressedTo_eq fun name => (horder.addressedTo_eq name).symm)⟩
  have hsame : ∀ r', (∃ actions, r.applyAll commands = .ok (r', actions)) ↔
      ∃ actions, r.applyAll commands' = .ok (r', actions) := by
    intro r'
    rw [applyAll_edits_iff h.labelled hedits, applyAll_edits_iff h.labelled hedits', hby]
    refine and_congr_left fun _ => ?_
    exact forall_congr' fun command => imp_congr_left horder.perm.mem_iff
  exact Answer.alike_of_ok_iff hsame

/-- Edits of "Summer" and of "Standard" in turn, the latter named with and without
blanks. -/
def mixedEdits : List Command :=
  [.setHours "Summer" .monday (some ⟨5, by decide⟩), .newVersion "Standard" summerStart,
   .setExpiringDate "Summer" ⟨3652501, by decide⟩ ⟨0, by decide⟩,
   .setHours " Standard " .friday (some ⟨7, by decide⟩)]

/-- The same edits, those of "Standard" first. -/
def sortedEdits : List Command :=
  [.newVersion "Standard" summerStart, .setHours " Standard " .friday (some ⟨7, by decide⟩),
   .setHours "Summer" .monday (some ⟨5, by decide⟩),
   .setExpiringDate "Summer" ⟨3652501, by decide⟩ ⟨0, by decide⟩]

theorem edits_reorder_sorted :
    Command.Reordered mixedEdits sortedEdits ∧
      ∃ x x', (empty.after derivedHistory).applyAll mixedEdits = .ok x ∧
        (empty.after derivedHistory).applyAll sortedEdits = .ok x' ∧ x'.1 = x.1 ∧
        x.1.calendars.rows.map (·.versions.length) = [2, 2, 1] := by
  have horder : Command.Reordered mixedEdits sortedEdits := by decide +kernel
  have hedits : ∀ command ∈ mixedEdits, command.edit?.isSome = true := by decide +kernel
  have hsame := edits_reorder (Reachable.empty.after derivedHistory) hedits horder
  obtain ⟨x, hx, htest⟩ := Answer.exists_ok_of_any
    (x := (empty.after derivedHistory).applyAll mixedEdits)
    (p := fun x => x.1.calendars.rows.map (·.versions.length) == [2, 2, 1]) (by decide +kernel)
  rw [hx] at hsame
  obtain ⟨x', hx', heq⟩ := hsame.of_ok
  exact ⟨horder, x, x', hx, hx', heq, beq_iff_eq.mp htest⟩

end Registry

end WorkingTime
