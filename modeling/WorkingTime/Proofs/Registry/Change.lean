/-
The five things that a successful operation can do to a registry.

`Change r r'` says what a single success makes of a registry, with everything
that was checked on the way, and `of_add`, `of_rename` and so on say it of each
function.  An invariant is then proved once for each of the five changes.
-/
import WorkingTime.Registry.Edit
import WorkingTime.Proofs.Registry.Parents
import WorkingTime.Proofs.Text.Blank

namespace WorkingTime

open Relation (ReflTransGen TransGen)

/-! ## Ids -/

namespace CalendarId

theorem ext {a b : CalendarId} (h : a.value = b.value) : a = b := by
  cases a
  cases b
  cases h
  rfl

theorem next?_eq_some_iff {id next : CalendarId} :
    id.next? = some next ↔ next.value = id.value + 1 := by
  simp only [next?, ofNat?]
  split
  next hlt =>
    rw [Option.some.injEq]
    constructor
    · rintro rfl
      rfl
    · intro h
      exact ext h.symm
  next hge =>
    simp only [reduceCtorEq, false_iff]
    intro h
    exact hge (h ▸ next.isLt)

theorem max_value (a b : CalendarId) : (a.max b).value = Max.max a.value b.value := by
  rw [max]
  split
  next hle => exact (Nat.max_eq_right hle).symm
  next hnot => exact (Nat.max_eq_left (by omega)).symm

end CalendarId

namespace Registry

/-! ## Looking up -/

theorem key_eq_iff {c : Calendar} {id : CalendarId} : Keyed.key c = id.value ↔ c.id = id :=
  ⟨CalendarId.ext, congrArg CalendarId.value⟩

theorem get_eq_ok_iff {r : Registry} {id : CalendarId} {c : Calendar} :
    r.get id = .ok c ↔ c ∈ r.calendars.rows ∧ c.id = id := by
  rw [← key_eq_iff, ← Table.find?_eq_some_iff, get]
  cases r.calendars.find? id.value <;> simp

theorem get_id {r : Registry} {c : Calendar} (hc : c ∈ r.calendars.rows) : r.get c.id = .ok c :=
  get_eq_ok_iff.mpr ⟨hc, rfl⟩

theorem get_eq_error {r : Registry} {id : CalendarId} (h : ∀ c ∈ r.calendars.rows, c.id ≠ id) :
    r.get id = .error (.unknownId id) := by
  rw [get]
  cases hfind : r.calendars.find? id.value with
  | none => rfl
  | some c =>
      obtain ⟨hc, hid⟩ := get_eq_ok_iff.mp (show r.get id = .ok c by rw [get, hfind])
      exact absurd hid (h c hc)

/-! ## Names -/

/-- A text that can be the name of a calendar: without blanks around it and
not empty. -/
def IsName (name : String) : Prop :=
  Text.trimmed name = name ∧ name ≠ ""

theorem checkName_eq_ok_iff {text name : String} :
    checkName text = .ok name ↔ name = Text.trimmed text ∧ name ≠ "" := by
  simp only [checkName]
  split
  next hempty =>
    simp only [reduceCtorEq, false_iff]
    rintro ⟨rfl, hne⟩
    exact hne (by simpa using hempty)
  next hempty =>
    rw [Except.ok.injEq]
    constructor
    · rintro rfl
      exact ⟨rfl, by simpa using hempty⟩
    · exact fun h => h.1.symm

theorem isName_of_checkName {text name : String} (h : checkName text = .ok name) :
    IsName name := by
  obtain ⟨rfl, hne⟩ := checkName_eq_ok_iff.mp h
  exact ⟨Text.trimmed_trimmed text, hne⟩

theorem hasName_iff {r : Registry} {name : String} :
    r.hasName name = true ↔ ∃ c ∈ r.calendars.rows, c.name = name := by
  simp [hasName]

theorem dependant?_eq_none_iff {r : Registry} {id : CalendarId} :
    r.dependant? id = none ↔ ∀ c ∈ r.calendars.rows, c.id ≠ id → id ∉ c.parents := by
  simp [dependant?]

/-! ## Calendars that are there, ids that are left -/

theorem allocateId_of_room {r : Registry} (hroom : r.nextId.value + 1 < UInt64.size) :
    r.allocateId = .ok (r.nextId, { r with nextId := ⟨r.nextId.value + 1, hroom⟩ }) := by
  have hnext : r.nextId.next? = some ⟨r.nextId.value + 1, hroom⟩ :=
    CalendarId.next?_eq_some_iff.mpr rfl
  rw [allocateId, hnext]

theorem derive_eq_add {r : Registry} {c : Calendar} (hc : c ∈ r.calendars.rows) (name : String) :
    r.derive c.id name = r.add name (.derivedFrom c.id) := by
  rw [derive, Answer.discard_bind, get_id hc, Answer.ok_bind]

theorem copy_eq_add {r : Registry} {c : Calendar} (hc : c ∈ r.calendars.rows) (name : String) :
    r.copy c.id name = r.add name c.current := by
  rw [copy, get_id hc, Answer.ok_bind]

theorem edit_eq_put {r : Registry} {c : Calendar} (hc : c ∈ r.calendars.rows)
    (change : Calendar → Except RuleError Calendar) :
    r.edit c.id change = r.put <$> asRule (change c) := by
  rw [edit, get_id hc, Answer.ok_bind]
  cases asRule (change c) <;> rfl

/-! ## Changes -/

/-- What one successful operation makes of a registry. -/
inductive Change (r : Registry) : Registry → Prop
  /-- A calendar with one version and the next id; its parent, if it has one,
  is a calendar, or was copied from a version of one. -/
  | added {name : String} {v : Version} {next : CalendarId} : IsName name →
      (∀ c ∈ r.calendars.rows, c.name ≠ name) →
      (∀ p ∈ v.parent, ∃ c ∈ r.calendars.rows, c.id = p ∨ p ∈ c.parents) →
      r.nextId.next? = some next →
      Change r ⟨r.calendars.insert (.single r.nextId name v), next⟩
  /-- Another name for a calendar. -/
  | renamed {c : Calendar} {name : String} : c ∈ r.calendars.rows → IsName name →
      (∀ other ∈ r.calendars.rows, other.id ≠ c.id → other.name ≠ name) →
      Change r (r.put { c with name })
  /-- A calendar less that is no parent of another one. -/
  | removed {c : Calendar} : c ∈ r.calendars.rows →
      (∀ other ∈ r.calendars.rows, other.id ≠ c.id → c.id ∉ other.parents) →
      Change r { r with calendars := r.calendars.erase c.id.value }
  /-- Another parent for a current version, or none. -/
  | reparented {c : Calendar} {parent : Option CalendarId} : c ∈ r.calendars.rows →
      (∀ p ∈ parent, (∃ k ∈ r.calendars.rows, k.id = p) ∧
        ¬ ReflTransGen r.HasParent p c.id) →
      Change r (r.put (c.setParent parent))
  /-- An edit of a calendar. -/
  | edited {c c' : Calendar} : c ∈ r.calendars.rows → c.Edited c' → Change r (r.put c')

/-! ## Successful operations -/

section Inversion

variable {r r' : Registry} {id k : CalendarId} {text : String}

theorem of_add {v : Version} (h : r.add text v = .ok (id, r')) :
    ∃ name next, IsName name ∧ (∀ c ∈ r.calendars.rows, c.name ≠ name) ∧
      r.nextId.next? = some next ∧ id = r.nextId ∧
        r' = ⟨r.calendars.insert (.single r.nextId name v), next⟩ := by
  simp only [add, availableName, allocateId, Answer.bind_eq_ok_iff, Answer.throw_bind,
    Answer.refuse_eq_ok_iff, Answer.pure_eq_ok_iff] at h
  obtain ⟨name, ⟨_, hname, hfree, rfl⟩, ⟨k, r₁⟩, hid, hr⟩ := h
  split at hid
  next next hnext =>
    cases hid
    cases hr
    refine ⟨_, next, isName_of_checkName hname, ?_, hnext, rfl, rfl⟩
    intro c hc hcn
    exact hfree (hasName_iff.mpr ⟨c, hc, hcn⟩)
  · cases hid

theorem of_rename (h : r.rename id text = .ok r') :
    ∃ c name, c ∈ r.calendars.rows ∧ c.id = id ∧ IsName name ∧
      (∀ other ∈ r.calendars.rows, other.id ≠ c.id → other.name ≠ name) ∧
        r' = r.put { c with name } := by
  simp only [rename, Answer.bind_eq_ok_iff, Answer.throw_bind, Answer.refuse_eq_ok_iff,
    Answer.pure_eq_ok_iff] at h
  obtain ⟨name, hname, hfree, c, hc, rfl⟩ := h
  obtain ⟨hmem, rfl⟩ := get_eq_ok_iff.mp hc
  refine ⟨c, name, hmem, rfl, isName_of_checkName hname, ?_, rfl⟩
  intro other hother hne hn
  exact hfree (List.any_eq_true.mpr ⟨other, hother, by simp [hne, hn]⟩)

theorem of_remove {c : Calendar} (h : r.remove id = .ok (c, r')) :
    c ∈ r.calendars.rows ∧ c.id = id ∧
      (∀ other ∈ r.calendars.rows, other.id ≠ c.id → c.id ∉ other.parents) ∧
        r' = { r with calendars := r.calendars.erase c.id.value } := by
  simp only [remove, Answer.bind_eq_ok_iff] at h
  obtain ⟨c, hc, h⟩ := h
  obtain ⟨hmem, rfl⟩ := get_eq_ok_iff.mp hc
  split at h
  · cases h
  next hnone =>
    cases h
    exact ⟨hmem, rfl, dependant?_eq_none_iff.mp hnone, rfl⟩

theorem of_setParent {parent : Option CalendarId} (h : r.setParent id parent = .ok r') :
    ∃ c ∈ r.calendars.rows, c.id = id ∧
      (∀ p ∈ parent, (∃ k ∈ r.calendars.rows, k.id = p) ∧ ¬ ReflTransGen r.HasParent p c.id) ∧
        r' = r.put (c.setParent parent) := by
  simp only [setParent, Answer.bind_eq_ok_iff] at h
  obtain ⟨c, hc, h⟩ := h
  obtain ⟨hmem, rfl⟩ := get_eq_ok_iff.mp hc
  cases parent with
  | none =>
      cases h
      exact ⟨c, hmem, rfl, by simp, rfl⟩
  | some p =>
      simp only [Answer.bind_eq_ok_iff, Answer.discard_eq_ok_iff, Answer.throw_bind,
        Answer.refuse_eq_ok_iff, Answer.pure_eq_ok_iff, reaches_iff] at h
      obtain ⟨-, ⟨k, hk⟩, hback, rfl⟩ := h
      refine ⟨c, hmem, rfl, ?_, rfl⟩
      intro q hq
      obtain rfl : p = q := Option.some.inj hq
      exact ⟨⟨k, get_eq_ok_iff.mp hk⟩, hback⟩

theorem of_edit {change : Calendar → Except RuleError Calendar} (h : r.edit id change = .ok r') :
    ∃ c ∈ r.calendars.rows, c.id = id ∧ ∃ c', change c = .ok c' ∧ r' = r.put c' := by
  simp only [edit, Answer.bind_eq_ok_iff, Answer.asRule_eq_ok_iff, Answer.pure_eq_ok_iff] at h
  obtain ⟨c, hc, c', hc', rfl⟩ := h
  obtain ⟨hmem, hid⟩ := get_eq_ok_iff.mp hc
  exact ⟨c, hmem, hid, c', hc', rfl⟩

/-! ### Each makes a change -/

theorem change_of_add {v : Version}
    (hv : ∀ p ∈ v.parent, ∃ c ∈ r.calendars.rows, c.id = p ∨ p ∈ c.parents)
    (h : r.add text v = .ok (id, r')) : Change r r' := by
  obtain ⟨name, next, hname, hfree, hnext, -, rfl⟩ := of_add h
  exact .added hname hfree hv hnext

theorem change_of_create (h : r.create text = .ok (id, r')) : Change r r' :=
  change_of_add (by simp) h

theorem change_of_derive (h : r.derive k text = .ok (id, r')) : Change r r' := by
  simp only [derive, Answer.bind_eq_ok_iff, Answer.discard_eq_ok_iff] at h
  obtain ⟨-, ⟨c, hc⟩, h⟩ := h
  refine change_of_add ?_ h
  intro p hp
  obtain rfl : k = p := Option.some.inj hp
  obtain ⟨hmem, hid⟩ := get_eq_ok_iff.mp hc
  exact ⟨c, hmem, .inl hid⟩

theorem change_of_copy (h : r.copy k text = .ok (id, r')) : Change r r' := by
  obtain ⟨c, hc, h⟩ := Answer.bind_eq_ok_iff.mp h
  refine change_of_add ?_ h
  intro p hp
  have hcp : p ∈ c.parents := Calendar.mem_parents.mpr ⟨_, c.current_mem_versions, hp⟩
  exact ⟨c, (get_eq_ok_iff.mp hc).1, .inr hcp⟩

theorem change_of_rename (h : r.rename k text = .ok r') : Change r r' := by
  obtain ⟨c, name, hc, -, hname, hfree, rfl⟩ := of_rename h
  exact .renamed hc hname hfree

theorem change_of_remove {c : Calendar} (h : r.remove k = .ok (c, r')) : Change r r' := by
  obtain ⟨hc, -, hfree, rfl⟩ := of_remove h
  exact .removed hc hfree

theorem change_of_setParent {parent : Option CalendarId}
    (h : r.setParent k parent = .ok r') : Change r r' := by
  obtain ⟨c, hc, -, hparent, rfl⟩ := of_setParent h
  exact .reparented hc hparent

theorem change_of_edit {change : Calendar → Except RuleError Calendar}
    (hchange : ∀ c c', change c = .ok c' → c.Edited c') (h : r.edit k change = .ok r') :
    Change r r' := by
  obtain ⟨c, hc, -, c', hc', rfl⟩ := of_edit h
  exact .edited hc (hchange c c' hc')

end Inversion

end Registry

end WorkingTime
