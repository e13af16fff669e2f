/-
The names of calendars.

An operation stores a name without the blanks around it.  A document is not held
to that: the name of a stored calendar is compared without its blanks and kept
with them.  So a name with blanks around it can only have come with a document
(`names_of_changes`), and what holds in every registry is said of proper names:
no two calendars share one, and a calendar is found by its name exactly when
that name is proper (`Labelled.find_name_iff`).
-/
import WorkingTime.Proofs.Registry.Reachable

namespace WorkingTime.Registry

open Relation (ReflTransGen)

/-! ## In every registry -/

/-- What holds of the names in every registry that can be reached: none is
blank, and a name without blanks around it belongs to one calendar. -/
structure Labelled (r : Registry) : Prop where
  visible : ∀ c ∈ r.calendars.rows, Text.trimmed c.name ≠ ""
  distinct : ∀ a ∈ r.calendars.rows, ∀ b ∈ r.calendars.rows,
    IsName a.name → a.name = b.name → a.id = b.id

theorem IsName.visible {name : String} (h : IsName name) : Text.trimmed name ≠ "" := by
  rw [h.1]
  exact h.2

theorem labelled_empty : empty.Labelled where
  visible _ hc := absurd hc List.not_mem_nil
  distinct _ ha := absurd ha List.not_mem_nil

theorem Labelled.put {r : Registry} (h : r.Labelled) {c' : Calendar}
    (hvisible : Text.trimmed c'.name ≠ "")
    (hfree : IsName c'.name → ∀ other ∈ r.calendars.rows, other.id ≠ c'.id →
      other.name ≠ c'.name) : (r.put c').Labelled where
  visible k hk := by
    rcases mem_put.mp hk with rfl | ⟨hk, -⟩
    · exact hvisible
    · exact h.visible k hk
  distinct a ha b hb hname hab := by
    rcases mem_put.mp ha with rfl | ⟨ha', hac⟩
    · rcases mem_put.mp hb with rfl | ⟨hb', hbc⟩
      · rfl
      · exact absurd hab.symm (hfree hname b hb' hbc)
    · rcases mem_put.mp hb with rfl | ⟨hb', -⟩
      · exact absurd hab (hfree (hab ▸ hname) a ha' hac)
      · exact h.distinct a ha' b hb' hname hab

theorem Labelled.put_of_name {r : Registry} (h : r.Labelled) {c c' : Calendar}
    (hc : c ∈ r.calendars.rows) (hid : c'.id = c.id) (hname : c'.name = c.name) :
    (r.put c').Labelled := by
  refine h.put (hname ▸ h.visible c hc) ?_
  intro hproper other hother hne hn
  exact hne ((h.distinct c hc other hother (hname ▸ hproper) (hname ▸ hn.symm)).symm.trans hid.symm)

theorem Labelled.change {r r' : Registry} (h : r.Labelled) (hchange : Change r r') :
    r'.Labelled := by
  cases hchange with
  | @added name v next hname hfree _ _ =>
      have hput : (r.put (.single r.nextId name v)).Labelled :=
        h.put hname.visible fun _ other hother _ => hfree other hother
      exact ⟨hput.visible, hput.distinct⟩
  | renamed _ hname hfree => exact h.put hname.visible fun _ => hfree
  | removed _ _ =>
      constructor
      · intro k hk
        exact h.visible k (Table.mem_erase.mp hk).1
      · intro a ha b hb
        exact h.distinct a (Table.mem_erase.mp ha).1 b (Table.mem_erase.mp hb).1
  | reparented hc _ => exact h.put_of_name hc rfl rfl
  | edited hc hedited => exact h.put_of_name hc hedited.id_eq hedited.name_eq

/-- A stored calendar is admitted when no calendar before it has the name that
its own stands for; its own name, if it is proper, is that name. -/
theorem Labelled.admitStored {r r' : Registry} (h : r.Labelled) {c : Calendar}
    (hstored : r.admitStored c = .ok r') : r'.Labelled := by
  obtain ⟨hvisible, hfree, -, rfl⟩ := admitStored_eq_ok_iff.mp hstored
  refine h.put hvisible ?_
  intro hname other hother _
  rw [← hname.1]
  exact hfree other hother

theorem labelled_of_ofCalendars {cs : List Calendar} {nextId : CalendarId} {r : Registry}
    (h : ofCalendars cs nextId = .ok r) : r.Labelled := by
  obtain ⟨named, hnamed, hr, -⟩ := ofCalendars_eq_ok_iff.mp h
  obtain ⟨free, -, rfl⟩ := reserveIds_eq_ok_iff.mp hr
  have hlabelled : named.Labelled :=
    Answer.foldlM_invariant (fun _ _ _ _ hb hstep => Labelled.admitStored hb hstep) hnamed
      labelled_empty
  exact ⟨hlabelled.visible, hlabelled.distinct⟩

theorem Reachable.labelled {r : Registry} (h : r.Reachable) : r.Labelled := by
  refine h.induction labelled_empty (fun _ _ _ _ hr => labelled_of_ofCalendars hr) ?_
    fun _ _ hr hchange => hr.change hchange
  intro value r hr
  obtain ⟨_, -, hmake⟩ := ofCalendars_of_ofReading hr
  exact labelled_of_ofCalendars hmake

/-! ## Where names come from -/

theorem names_of_change {r r' : Registry} (h : Change r r') :
    ∀ c' ∈ r'.calendars.rows, IsName c'.name ∨
      ∃ c ∈ r.calendars.rows, c.id = c'.id ∧ c.name = c'.name := by
  intro c' hc'
  cases h with
  | added hname _ _ _ =>
      rcases Table.mem_insert.mp hc' with rfl | ⟨hc', -⟩
      · exact .inl hname
      · exact .inr ⟨c', hc', rfl, rfl⟩
  | renamed _ hname _ =>
      rcases mem_put.mp hc' with rfl | ⟨hc', -⟩
      · exact .inl hname
      · exact .inr ⟨c', hc', rfl, rfl⟩
  | removed _ _ => exact .inr ⟨c', (Table.mem_erase.mp hc').1, rfl, rfl⟩
  | @reparented c _ hc _ =>
      rcases mem_put.mp hc' with rfl | ⟨hc', -⟩
      · exact .inr ⟨c, hc, rfl, rfl⟩
      · exact .inr ⟨c', hc', rfl, rfl⟩
  | @edited c _ hc hedited =>
      rcases mem_put.mp hc' with rfl | ⟨hc', -⟩
      · exact .inr ⟨c, hc, hedited.id_eq.symm, hedited.name_eq.symm⟩
      · exact .inr ⟨c', hc', rfl, rfl⟩

theorem names_of_changes {r r' : Registry} (h : ReflTransGen Change r r') :
    ∀ c' ∈ r'.calendars.rows, IsName c'.name ∨
      ∃ c ∈ r.calendars.rows, c.id = c'.id ∧ c.name = c'.name := by
  induction h with
  | refl => exact fun c' hc' => .inr ⟨c', hc', rfl, rfl⟩
  | tail _ hstep ih =>
      intro c' hc'
      rcases names_of_change hstep c' hc' with hname | ⟨k, hk, hid, hname⟩
      · exact .inl hname
      · rw [← hid, ← hname]
        exact ih k hk

/-! ## Finding calendars by name -/

theorem mem_of_find {r : Registry} {text : String} {c : Calendar} (h : r.find text = .ok c) :
    c ∈ r.calendars.rows ∧ c.name = Text.trimmed text := by
  simp only [find] at h
  split at h
  next k hfind =>
    cases h
    exact ⟨List.mem_of_find?_eq_some hfind, by simpa using List.find?_some hfind⟩
  · cases h

theorem find_of_mem {r : Registry} {text : String} {c : Calendar} (hc : c ∈ r.calendars.rows)
    (hname : c.name = Text.trimmed text) : ∃ k, r.find text = .ok k := by
  simp only [find]
  cases hfind : r.calendars.rows.find? (·.name == Text.trimmed text) with
  | some k => exact ⟨k, rfl⟩
  | none => simpa [hname] using List.find?_eq_none.mp hfind c hc

/-- A calendar is found by its name when no blanks are around it, and otherwise
is not: the name that is looked up is another one. -/
theorem Labelled.find_name_iff {r : Registry} (h : r.Labelled) {c : Calendar}
    (hc : c ∈ r.calendars.rows) : r.find c.name = .ok c ↔ Text.trimmed c.name = c.name := by
  constructor
  · intro hfind
    exact (mem_of_find hfind).2.symm
  · intro htrim
    obtain ⟨k, hk⟩ := find_of_mem hc htrim.symm
    obtain ⟨hmem, hname⟩ := mem_of_find hk
    have hcname : IsName c.name := ⟨htrim, fun hempty => h.visible c hc (htrim.trans hempty)⟩
    have hid : c.id = k.id := h.distinct c hc k hmem hcname (htrim.symm.trans hname.symm)
    rw [hk, eq_of_id_eq hc hmem hid]

/-! ## Registries with proper names -/

/-- All names are without blanks around them and not empty, no two calendars
share one, and every calendar is found by its name. -/
structure ProperNames (r : Registry) : Prop where
  names : ∀ c ∈ r.calendars.rows, IsName c.name
  distinct : ∀ a ∈ r.calendars.rows, ∀ b ∈ r.calendars.rows, a.name = b.name → a = b
  found : ∀ c ∈ r.calendars.rows, r.find c.name = .ok c

theorem Labelled.properNames {r : Registry} (h : r.Labelled)
    (hnames : ∀ c ∈ r.calendars.rows, IsName c.name) : r.ProperNames where
  names := hnames
  distinct a ha b hb hab := eq_of_id_eq ha hb (h.distinct a ha b hb (hnames a ha) hab)
  found c hc := (h.find_name_iff hc).mpr (hnames c hc).1

/-- No name in a reachable registry is blank, and a calendar is found by its
name exactly when that name has no blanks around it.  When no name has, names
stay proper whatever is done; and only then, since nothing removes blanks from
a stored name but giving another one. -/
theorem names_stay_proper_iff {r : Registry} (h : r.Reachable) :
    ((∀ ops, (r.after ops).ProperNames) ↔
        ∀ c ∈ r.calendars.rows, Text.trimmed c.name = c.name) ∧
      ∀ c ∈ r.calendars.rows, Text.trimmed c.name ≠ "" ∧
        (r.find c.name = .ok c ↔ Text.trimmed c.name = c.name) := by
  have hvisible := h.labelled.visible
  refine ⟨⟨?_, ?_⟩, fun c hc => ⟨hvisible c hc, h.labelled.find_name_iff hc⟩⟩
  · intro hproper c hc
    exact ((hproper []).names c hc).1
  · intro htrim ops
    refine (h.after ops).labelled.properNames ?_
    intro c' hc'
    rcases names_of_changes (changes_of_after ops r) c' hc' with hname | ⟨c, hc, -, hname⟩
    · exact hname
    · rw [← hname]
      exact ⟨htrim c hc, fun hempty => hvisible c hc ((htrim c hc).trans hempty)⟩

theorem names_stay_proper_derived :
    (empty.after derivedHistory).calendars.rows.map (·.name) = ["Standard", "Summer", "Winter"] ∧
      ∀ ops, ((empty.after derivedHistory).after ops).ProperNames :=
  ⟨by decide +kernel,
    (names_stay_proper_iff (Reachable.empty.after derivedHistory)).1.mpr (by decide +kernel)⟩

/-- Two stored calendars with one name, blanks included, make a registry: each is
compared with the other by what its name stands for.  Neither is found by that
name. -/
theorem stored_name_shared :
    ∃ r, ofCalendars [.single ⟨1, by decide⟩ " A" {}, .single ⟨2, by decide⟩ " A" {}]
          ⟨3, by decide⟩ = .ok r ∧
      r.Reachable ∧ r.calendars.rows.map (·.name) = [" A", " A"] ∧ Text.trimmed " A" ≠ " A" ∧
      r.find " A" = .error (.unknownName "A") := by
  let cs : List Calendar := [.single ⟨1, by decide⟩ " A" {}, .single ⟨2, by decide⟩ " A" {}]
  let r : Registry := ⟨⟨cs, by decide⟩, ⟨3, by decide⟩⟩
  have hmake : ofCalendars cs ⟨3, by decide⟩ = .ok r := by decide +kernel
  have hchain : ∀ c ∈ cs, Calendar.ofVersions c.id c.name c.versions = .ok c := by decide +kernel
  exact ⟨r, hmake, .assembled hchain hmake, by decide +kernel, by decide +kernel,
    by decide +kernel⟩

end WorkingTime.Registry
