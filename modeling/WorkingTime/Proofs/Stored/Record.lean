/-
What is known of a record that was read.

A record is built from slots that its fields filled one after the other, in an
object or in a list.  Whatever holds of the blank slots and is kept by every
field holds of the slots a record is built from (`Record.read_invariant`); the
calendars of a stored registry divide time for this reason
(`Registry.divideTime_of_read`).  A field whose slot no other field sees can be
given another value by itself (`Record.readMembers_otherValue`).
-/
import WorkingTime.Stored.Read
import WorkingTime.Proofs.Calendar.Edit

namespace WorkingTime

/-! ## Fields in their order -/

/-- A change of the slots that a field does not see can be made before or after it. -/
theorem Field.read_map {σ α : Type} {name : String} {read : Reading → Except ReadError α}
    {put : σ → α → σ} {g : σ → σ} (hg : ∀ slots a, put (g slots) a = g (put slots a))
    (value : Reading) (slots : σ) :
    (optionally name read put).read value (g slots) =
      g <$> (optionally name read put).read value slots := by
  show put (g slots) <$> read value = g <$> (put slots <$> read value)
  cases read value with
  | error e => rfl
  | ok a => exact congrArg Except.ok (hg slots a)

namespace Record

variable {σ α : Type} {P : σ → Prop}

theorem mem_of_find?_field {fields : List (Field σ)} {key : String} {field : Field σ}
    (h : fields.find? (·.name == key) = some field) : field ∈ fields ∧ field.name = key :=
  ⟨List.mem_of_find?_eq_some h, by simpa using List.find?_some h⟩

theorem readMembers_invariant {fields : List (Field σ)} {members : List (Option String × Reading)}
    {seen : List String} {slots slots' : σ}
    (hfield : ∀ field ∈ fields, field.name ∉ seen → ∀ value slots slots',
      field.read value slots = .ok slots' → P slots → P slots')
    (h : readMembers fields seen slots members = .ok slots') (hslots : P slots) : P slots' := by
  induction members generalizing seen slots with
  | nil =>
      cases h
      exact hslots
  | cons member rest ih =>
      obtain ⟨_ | key, value⟩ := member
      · cases h
      · rw [readMembers] at h
        split at h
        · split at h
          · exact ih hfield h hslots
          · cases h
        next field hfind =>
          split at h
          · cases h
          next hnew =>
            obtain ⟨slots₁, hread, h⟩ := Answer.bind_eq_ok_iff.mp h
            obtain ⟨hmem, rfl⟩ := mem_of_find?_field hfind
            refine ih ?_ h (hfield field hmem (by simpa using hnew) value slots slots₁ hread hslots)
            intro f hf hunseen
            exact hfield f hf fun hseen => hunseen (List.mem_cons_of_mem _ hseen)

theorem readItems_invariant {fields : List (Field σ)} {items : List Reading} {slots slots' : σ}
    (hfield : ∀ field ∈ fields, ∀ value slots slots',
      field.read value slots = .ok slots' → P slots → P slots')
    (h : readItems fields slots items = .ok slots') (hslots : P slots) : P slots' := by
  induction items generalizing fields slots with
  | nil =>
      rw [readItems] at h
      split at h
      · cases h
        exact hslots
      · cases h
  | cons value rest ih =>
      cases fields with
      | nil => cases h
      | cons field fields =>
          obtain ⟨slots₁, hread, h⟩ := Answer.bind_eq_ok_iff.mp h
          exact ih (fun f hf => hfield f (List.mem_cons_of_mem _ hf)) h
            (hfield field List.mem_cons_self value slots slots₁ hread hslots)

/-- What is in a slot was read from the first member of its name, when the other fields
leave the slot alone. -/
theorem find?_of_readMembers {β : Type} {fields : List (Field σ)} {name : String}
    {read : Reading → Except ReadError β} {put : σ → β → σ} (get : σ → Option β)
    (hfind : fields.find? (·.name == name) = some (.required name read put))
    (hput : ∀ slots b, get (put slots b) = some b)
    (hother : ∀ field ∈ fields, field.name ≠ name → ∀ value slots slots',
      field.read value slots = .ok slots' → get slots' = get slots)
    {members : List (Option String × Reading)} {seen : List String} {slots filled : σ} {b : β}
    (h : readMembers fields seen slots members = .ok filled) (hnone : get slots = none)
    (hfilled : get filled = some b) :
    ∃ value, members.find? (·.1 == some name) = some (some name, value) ∧
      read value = .ok b := by
  induction members generalizing seen slots with
  | nil =>
      cases h
      rw [hnone] at hfilled
      cases hfilled
  | cons member rest ih =>
      obtain ⟨_ | key, value⟩ := member
      · cases h
      · by_cases hkey : key = name
        · subst hkey
          refine ⟨value, by simp, ?_⟩
          rw [readMembers, hfind] at h
          simp only [] at h
          split at h
          · cases h
          · obtain ⟨slots₁, hread, h⟩ := Answer.bind_eq_ok_iff.mp h
            obtain ⟨b', hb', rfl⟩ := Answer.map_eq_ok_iff.mp hread
            -- the name is taken now, so nothing after it changes the slot
            have hkept : get filled = some b' := by
              refine readMembers_invariant (P := fun slots => get slots = some b') ?_ h
                (hput slots b')
              intro field hmem hunseen value slots slots' hread hslots
              have hne : field.name ≠ key := fun heq => hunseen (heq ▸ List.mem_cons_self)
              exact (hother field hmem hne value slots slots' hread).trans hslots
            rw [hkept] at hfilled
            rw [hb', Option.some.inj hfilled]
        · have hskip : (some key == some name) = false := by simpa using hkey
          rw [List.find?_cons_of_neg (by simp [hskip])]
          rw [readMembers] at h
          split at h
          · split at h
            · exact ih h hnone
            · cases h
          next field hfind' =>
            split at h
            · cases h
            · obtain ⟨slots₁, hread, h⟩ := Answer.bind_eq_ok_iff.mp h
              obtain ⟨hmem, hname⟩ := mem_of_find?_field hfind'
              have hsame := hother field hmem (hname ▸ hkey) value slots slots₁ hread
              exact ih h (hsame.trans hnone)

/-- A change of the slots that none of the fields to come sees can be made before or after
them. -/
theorem readMembers_map {fields : List (Field σ)} {g : σ → σ} {seen : List String}
    (hfield : ∀ field ∈ fields, field.name ∉ seen → ∀ value slots,
      field.read value (g slots) = g <$> field.read value slots)
    (members : List (Option String × Reading)) (slots : σ) :
    readMembers fields seen (g slots) members = g <$> readMembers fields seen slots members := by
  induction members generalizing seen slots with
  | nil => rfl
  | cons member rest ih =>
      obtain ⟨_ | key, value⟩ := member
      · rfl
      · rw [readMembers, readMembers]
        split
        · split
          · exact ih hfield slots
          · rfl
        next field hfind =>
          split
          · rfl
          next hnew =>
            obtain ⟨hmem, rfl⟩ := mem_of_find?_field hfind
            rw [hfield field hmem (by simpa using hnew), map_bind, bind_map_left]
            refine bind_congr ?_
            intro slots'
            refine ih ?_ slots'
            intro field' hfield' hnot
            exact hfield field' hfield' fun hseen => hnot (List.mem_cons_of_mem _ hseen)

theorem readItems_map {fields : List (Field σ)} {g : σ → σ}
    (hfield : ∀ field ∈ fields, ∀ value slots,
      field.read value (g slots) = g <$> field.read value slots)
    (items : List Reading) (slots : σ) :
    readItems fields (g slots) items = g <$> readItems fields slots items := by
  induction items generalizing fields slots with
  | nil =>
      rw [readItems, readItems]
      split <;> rfl
  | cons value rest ih =>
      cases fields with
      | nil => rfl
      | cons field fields =>
          obtain ⟨hfirst, hrest⟩ := List.forall_mem_cons.mp hfield
          rw [readItems, readItems, hfirst, map_bind, bind_map_left]
          exact bind_congr fun slots' => ih hrest slots'

/-! ## Another value for one field -/

section OtherValue

variable {β : Type} {fields : List (Field σ)} {name : String} {read : Reading → Except ReadError β}
  (put : σ → β → σ) {value₀ : Reading} {b₀ : β} {filled : σ}

/-- A field that is read again with another value, when what is read after it does not see
the slot of the field: that slot keeps the last value, and the others stay as they were. -/
theorem bind_otherValue {later : σ → Except ReadError σ} {slots : σ}
    (hput : ∀ slots b b', put (put slots b) b' = put slots b')
    (hlater : ∀ slots b, later (put slots b) = (put · b) <$> later slots)
    (hread₀ : read value₀ = .ok b₀)
    (h : ((Field.optionally name read put).read value₀ slots >>= later) = .ok filled)
    (value : Reading) :
    ((Field.optionally name read put).read value slots >>= later) = put filled <$> read value := by
  obtain ⟨slots₁, hfirst, h⟩ := Answer.bind_eq_ok_iff.mp h
  obtain ⟨b, hb, rfl⟩ := Answer.map_eq_ok_iff.mp hfirst
  obtain rfl : b₀ = b := Except.ok.inj (hread₀.symm.trans hb)
  rw [hlater, Answer.map_eq_ok_iff] at h
  obtain ⟨rest, hrest, rfl⟩ := h
  have hfield : (Field.optionally name read put).read value slots = put slots <$> read value := rfl
  rw [hfield, bind_map_left]
  simp only [hlater, hrest]
  cases read value with
  | error e => rfl
  | ok b => exact congrArg Except.ok (hput rest b₀ b).symm

/-- A record whose other members are read is read with any value in a member of its own as
that value is read. -/
theorem readMembers_otherValue
    (hfind : fields.find? (·.name == name) = some (.optionally name read put))
    (hput : ∀ slots b b', put (put slots b) b' = put slots b')
    (hother : ∀ field ∈ fields, field.name ≠ name → ∀ value slots b,
      field.read value (put slots b) = (put · b) <$> field.read value slots)
    (hread₀ : read value₀ = .ok b₀) (value : Reading) {before after : List (Option String × Reading)}
    {seen : List String} {slots : σ}
    (h : readMembers fields seen slots (before ++ (some name, value₀) :: after) = .ok filled) :
    readMembers fields seen slots (before ++ (some name, value) :: after) =
      put filled <$> read value := by
  induction before generalizing seen slots with
  | nil =>
      rw [List.nil_append, readMembers, hfind] at h ⊢
      simp only [] at h ⊢
      split at h
      · cases h
      next hnew =>
        rw [if_neg hnew]
        refine bind_otherValue put hput ?_ hread₀ h value
        intro slots b
        refine readMembers_map (g := fun slots => put slots b) ?_ after slots
        intro field hmem hunseen value slots
        exact hother field hmem (fun heq => hunseen (heq ▸ List.mem_cons_self)) value slots b
  | cons member before ih =>
      obtain ⟨_ | key, v⟩ := member
      · cases h
      · rw [List.cons_append, readMembers] at h ⊢
        split
        next hnone =>
          simp only [hnone] at h
          split at h
          next hwhole => exact (if_pos hwhole).trans (ih h)
          · cases h
        next field hsome =>
          simp only [hsome] at h
          split at h
          · cases h
          next hnew =>
            obtain ⟨slots₁, hslots₁, h⟩ := Answer.bind_eq_ok_iff.mp h
            rw [if_neg hnew, hslots₁, Answer.ok_bind, ih h]

theorem readItems_otherValue {earlier later : List (Field σ)}
    (hput : ∀ slots b b', put (put slots b) b' = put slots b')
    (hother : ∀ field ∈ later, ∀ value slots b,
      field.read value (put slots b) = (put · b) <$> field.read value slots)
    (hread₀ : read value₀ = .ok b₀) (value : Reading) {before after : List Reading} {slots : σ}
    (hlength : before.length = earlier.length)
    (h : readItems (earlier ++ .optionally name read put :: later) slots
      (before ++ value₀ :: after) = .ok filled) :
    readItems (earlier ++ .optionally name read put :: later) slots (before ++ value :: after) =
      put filled <$> read value := by
  induction earlier generalizing before slots with
  | nil =>
      obtain rfl := List.eq_nil_of_length_eq_zero hlength
      refine bind_otherValue put hput ?_ hread₀ h value
      intro slots b
      exact readItems_map (g := fun slots => put slots b)
        (fun field hmem value slots => hother field hmem value slots b) after slots
  | cons field earlier ih =>
      cases before with
      | nil => cases hlength
      | cons item before =>
          obtain ⟨slots₁, hslots₁, h⟩ := Answer.bind_eq_ok_iff.mp h
          rw [List.cons_append, List.cons_append, readItems, hslots₁, Answer.ok_bind]
          exact ih (Nat.succ.inj hlength) h

end OtherValue

/-! ## Whole records -/

section Whole

variable {form : Record σ α} {a : α}

theorem ofMembers_eq_ok_iff {members : List (Option String × Reading)} {closed : Bool} :
    form.ofMembers members closed = .ok a ↔
      ∃ slots, readMembers form.fields [] form.blank members = .ok slots ∧ closed = true ∧
        form.build slots = .ok a := by
  simp only [ofMembers, Answer.bind_eq_ok_iff, Answer.throw_bind, Answer.require_eq_ok_iff,
    Answer.mapError_eq_ok_iff]

theorem ofItems_eq_ok_iff {items : List Reading} {closed : Bool} :
    form.ofItems items closed = .ok a ↔
      ∃ slots, readItems form.fields form.blank items = .ok slots ∧ closed = true ∧
        form.build slots = .ok a := by
  simp only [ofItems, Answer.bind_eq_ok_iff, Answer.throw_bind, Answer.require_eq_ok_iff,
    Answer.mapError_eq_ok_iff]

theorem read_invariant {value : Reading} (hblank : P form.blank)
    (hfield : ∀ field ∈ form.fields, ∀ value slots slots',
      field.read value slots = .ok slots' → P slots → P slots')
    (h : form.read value = .ok a) : ∃ slots, P slots ∧ form.build slots = .ok a := by
  rw [read.eq_def] at h
  split at h
  · obtain ⟨slots, hslots, -, hbuild⟩ := ofMembers_eq_ok_iff.mp h
    exact ⟨slots, readMembers_invariant (fun f hf _ => hfield f hf) hslots hblank, hbuild⟩
  · obtain ⟨slots, hslots, -, hbuild⟩ := ofItems_eq_ok_iff.mp h
    exact ⟨slots, readItems_invariant hfield hslots hblank, hbuild⟩
  · cases h

end Whole

end Record

/-! ## Lists -/

theorem Reading.exists_of_mem_asList {α : Type} {read : Reading → Except ReadError α}
    {value : Reading} {as : List α} (h : value.asList read = .ok as) :
    ∀ a ∈ as, ∃ item, read item = .ok a := by
  cases value with
  | list items closed =>
      simp only [asList, Answer.bind_eq_ok_iff, Answer.throw_bind, Answer.require_eq_ok_iff,
        Answer.pure_eq_ok_iff, Answer.mapM_eq_ok_iff] at h
      obtain ⟨as', hitems, -, rfl⟩ := h
      intro a ha
      obtain ⟨i, hi, rfl⟩ := List.getElem_of_mem ha
      have hlen := hitems.length_eq
      exact ⟨items[i], (List.forall₂_iff_get.mp hitems).2 i (by omega) hi⟩
  | _ => cases h

/-! ## Calendars -/

theorem Calendar.divideTime_of_ofReading {value : Reading} {c : Calendar}
    (h : ofReading value = .ok c) : Version.DivideTime c.versions := by
  simp only [ofReading, Answer.bind_eq_ok_iff, Answer.mapError_eq_ok_iff,
    ofVersions_eq_ok_iff] at h
  obtain ⟨fields, -, htime, -, -, hversions⟩ := h
  exact hversions ▸ htime

theorem Registry.divideTime_of_read {value : Reading} {fields : Fields}
    (h : form.read value = .ok fields) :
    ∀ c ∈ fields.calendars, Version.DivideTime c.versions := by
  have hslots := Record.read_invariant
    (P := fun slots => ∀ cs ∈ slots.calendars, ∀ c ∈ cs, Version.DivideTime c.versions)
    (by simp [form]) ?_ h
  · obtain ⟨slots, hslots, hbuild⟩ := hslots
    simp only [form, Answer.bind_eq_ok_iff, Answer.pure_eq_ok_iff] at hbuild
    obtain ⟨nextId, -, cs, hcs, rfl⟩ := hbuild
    cases hc : slots.calendars with
    | none => simp [hc, Field.slot] at hcs
    | some cs' =>
        rw [hc] at hcs
        cases hcs
        exact hslots cs hc
  · intro field hfield value slots slots' hread hold
    simp only [form, List.mem_cons, List.not_mem_nil, or_false] at hfield
    rcases hfield with rfl | rfl
    · obtain ⟨id, -, rfl⟩ := Answer.map_eq_ok_iff.mp hread
      exact hold
    · obtain ⟨cs, hcs, rfl⟩ := Answer.map_eq_ok_iff.mp hread
      intro cs' hcs' c hc
      obtain rfl : cs = cs' := Option.some.inj hcs'
      obtain ⟨item, hitem⟩ := Reading.exists_of_mem_asList hcs c hc
      exact Calendar.divideTime_of_ofReading hitem

end WorkingTime
