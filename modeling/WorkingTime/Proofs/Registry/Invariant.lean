/-
The invariant of a registry.

`WellFormed` puts together what makes the library's questions meaningful:
every calendar divides time, every parent is there, no calendar is its own
ancestor through any versions, and the next id is past all ids.  A registry
put together from calendars has it by the checks that were made
(`wellFormed_of_ofCalendars`), and each change keeps it
(`WellFormed.change`), so all reachable registries have it
(`Reachable.wellFormed`).
-/
import WorkingTime.Proofs.Registry.Operation

namespace WorkingTime.Registry

open Relation (ReflTransGen TransGen)

/-- What holds of every registry that can be reached. -/
structure WellFormed (r : Registry) : Prop where
  /-- The versions of every calendar divide time. -/
  chained : ∀ c ∈ r.calendars.rows, Version.DivideTime c.versions
  /-- A parent of any version is a calendar. -/
  closed : ∀ a b, r.HasParent a b → ∃ c ∈ r.calendars.rows, c.id = b
  /-- No calendar is its own ancestor through any versions. -/
  acyclic : r.Acyclic
  /-- The next id is past the ids of all calendars. -/
  fresh : ∀ c ∈ r.calendars.rows, c.id.value < r.nextId.value

theorem WellFormed.ne_nextId {r : Registry} (h : r.WellFormed) {c : Calendar}
    (hc : c ∈ r.calendars.rows) : c.id ≠ r.nextId := by
  intro heq
  exact Nat.ne_of_lt (h.fresh c hc) (congrArg CalendarId.value heq)

/-! ## Calendars after a change -/

theorem mem_put {r : Registry} {c x : Calendar} :
    x ∈ (r.put c).calendars.rows ↔ x = c ∨ x ∈ r.calendars.rows ∧ x.id ≠ c.id := by
  rw [put, Table.mem_insert]
  exact or_congr_right (and_congr_right fun _ => not_congr key_eq_iff)

theorem mem_erase {r : Registry} {id : CalendarId} {x : Calendar} :
    x ∈ (r.calendars.erase id.value).rows ↔ x ∈ r.calendars.rows ∧ x.id ≠ id := by
  rw [Table.mem_erase]
  exact and_congr_right fun _ => not_congr key_eq_iff

theorem exists_id_put {r : Registry} {c c' : Calendar} (hc : c ∈ r.calendars.rows)
    (hid : c'.id = c.id) {id : CalendarId} :
    (∃ k ∈ (r.put c').calendars.rows, k.id = id) ↔ ∃ k ∈ r.calendars.rows, k.id = id := by
  constructor
  · rintro ⟨k, hk, rfl⟩
    rcases mem_put.mp hk with rfl | ⟨hk, -⟩
    · exact ⟨c, hc, hid.symm⟩
    · exact ⟨k, hk, rfl⟩
  · rintro ⟨k, hk, rfl⟩
    by_cases hkc : k.id = c'.id
    · exact ⟨c', mem_put.mpr (.inl rfl), hkc.symm⟩
    · exact ⟨k, mem_put.mpr (.inr ⟨hk, hkc⟩), rfl⟩

/-- The edges after one calendar was put in place of another are those from other
calendars, and its own. -/
theorem hasParent_put_iff {r : Registry} {c' : Calendar} {a b : CalendarId} :
    (r.put c').HasParent a b ↔
      r.HasParent a b ∧ a ≠ c'.id ∨ a = c'.id ∧ b ∈ c'.parents := by
  constructor
  · rintro ⟨k, hk, rfl, hb⟩
    rcases mem_put.mp hk with rfl | ⟨hk, hne⟩
    · exact .inr ⟨rfl, hb⟩
    · exact .inl ⟨⟨k, hk, rfl, hb⟩, hne⟩
  · rintro (⟨⟨k, hk, rfl, hb⟩, hne⟩ | ⟨rfl, hb⟩)
    · exact ⟨k, mem_put.mpr (.inr ⟨hk, hne⟩), rfl, hb⟩
    · exact ⟨c', mem_put.mpr (.inl rfl), rfl, hb⟩

theorem hasParent_put {r : Registry} {c' : Calendar} {a b : CalendarId}
    (h : (r.put c').HasParent a b) : r.HasParent a b ∨ a = c'.id ∧ b ∈ c'.parents :=
  (hasParent_put_iff.mp h).imp_left And.left

theorem wellFormed_put {r : Registry} (h : r.WellFormed) {c c' : Calendar}
    (hc : c ∈ r.calendars.rows) (hid : c'.id = c.id) (htime : Version.DivideTime c'.versions)
    (hparents : ∀ p ∈ c'.parents, ∃ k ∈ r.calendars.rows, k.id = p)
    (hacyclic : (r.put c').Acyclic) : (r.put c').WellFormed where
  chained k hk := by
    rcases mem_put.mp hk with rfl | ⟨hk, -⟩
    · exact htime
    · exact h.chained k hk
  closed a b hab := by
    refine (exists_id_put hc hid).mpr ?_
    rcases hasParent_put hab with hab | ⟨-, hb⟩
    · exact h.closed a b hab
    · exact hparents b hb
  acyclic := hacyclic
  fresh k hk := by
    rcases mem_put.mp hk with rfl | ⟨hk, -⟩
    · rw [hid]
      exact h.fresh c hc
    · exact h.fresh k hk

theorem wellFormed_put_of_parents {r : Registry} (h : r.WellFormed) {c c' : Calendar}
    (hc : c ∈ r.calendars.rows) (hid : c'.id = c.id) (htime : Version.DivideTime c'.versions)
    (hparents : ∀ p ∈ c'.parents, p ∈ c.parents) : (r.put c').WellFormed := by
  refine wellFormed_put h hc hid htime ?_ (h.acyclic.mono ?_)
  · intro p hp
    exact h.closed c.id p ⟨c, hc, rfl, hparents p hp⟩
  · intro a b hab
    rcases hasParent_put hab with hab | ⟨rfl, hb⟩
    · exact hab
    · exact ⟨c, hc, hid.symm, hparents b hb⟩

/-! ## Each change -/

theorem mem_parents_setParent_iff {c : Calendar} {parent : Option CalendarId} {p : CalendarId} :
    p ∈ (c.setParent parent).parents ↔
      (∃ v ∈ c.superseded, v.parent = some p) ∨ parent = some p := by
  rw [Calendar.mem_parents]
  constructor
  · rintro ⟨v, hv, hp⟩
    rcases Calendar.mem_versions.mp hv with hv | rfl
    · exact .inl ⟨v, hv, hp⟩
    · exact .inr hp
  · rintro (⟨v, hv, hp⟩ | hp)
    · exact ⟨v, Calendar.mem_versions.mpr (.inl hv), hp⟩
    · exact ⟨_, Calendar.current_mem_versions _, hp⟩

theorem mem_parents_setParent {c : Calendar} {parent : Option CalendarId} {p : CalendarId}
    (h : p ∈ (c.setParent parent).parents) : p ∈ c.parents ∨ parent = some p := by
  rcases mem_parents_setParent_iff.mp h with ⟨v, hv, hp⟩ | hp
  · exact .inl (Calendar.mem_parents.mpr ⟨v, Calendar.mem_versions.mpr (.inl hv), hp⟩)
  · exact .inr hp

theorem wellFormed_setParent {r : Registry} (h : r.WellFormed) {c : Calendar}
    {parent : Option CalendarId} (hc : c ∈ r.calendars.rows)
    (hparent : ∀ p ∈ parent, (∃ k ∈ r.calendars.rows, k.id = p) ∧
      ¬ ReflTransGen r.HasParent p c.id) : (r.put (c.setParent parent)).WellFormed := by
  refine wellFormed_put h hc rfl (Calendar.divideTime_withCurrent rfl rfl (h.chained c hc)) ?_ ?_
  · intro p hp
    rcases mem_parents_setParent hp with hp | hp
    · exact h.closed c.id p ⟨c, hc, rfl, hp⟩
    · exact (hparent p hp).1
  · have hedge : ∀ a b, (r.put (c.setParent parent)).HasParent a b →
        r.HasParent a b ∨ a = c.id ∧ parent = some b := by
      intro a b hab
      rcases hasParent_put hab with hab | ⟨rfl, hb⟩
      · exact .inl hab
      · rcases mem_parents_setParent hb with hb | hb
        · exact .inl ⟨c, hc, rfl, hb⟩
        · exact .inr ⟨rfl, hb⟩
    exact acyclic_of_optional_edge hedge (fun p hp => (hparent p hp).2) h.acyclic

theorem mem_parents_single {id : CalendarId} {name : String} {v : Version} {p : CalendarId} :
    p ∈ (Calendar.single id name v).parents ↔ v.parent = some p := by
  cases hv : v.parent <;>
    simp [Calendar.single, Calendar.parents, Calendar.versions, Version.unbounded, hv, eq_comm]

theorem divideTime_single {id : CalendarId} {name : String} {v : Version} :
    Version.DivideTime (Calendar.single id name v).versions :=
  ⟨[], Version.divideFrom_singleton.mpr ⟨rfl, rfl, rfl⟩⟩

theorem wellFormed_add {r : Registry} (h : r.WellFormed) {name : String} {v : Version}
    {next : CalendarId} (hparent : ∀ p ∈ v.parent, ∃ c ∈ r.calendars.rows, c.id = p)
    (hnext : r.nextId.next? = some next) :
    WellFormed ⟨r.calendars.insert (.single r.nextId name v), next⟩ := by
  have hvalue : next.value = r.nextId.value + 1 := CalendarId.next?_eq_some_iff.mp hnext
  have hmem : ∀ x, x ∈ (r.calendars.insert (.single r.nextId name v)).rows ↔
      x = .single r.nextId name v ∨ x ∈ r.calendars.rows := by
    intro x
    exact Table.mem_insert_of_fresh fun c hc => Nat.ne_of_lt (h.fresh c hc)
  have hedge : ∀ a b, HasParent ⟨r.calendars.insert (.single r.nextId name v), next⟩ a b →
      r.HasParent a b ∨ a = r.nextId ∧ v.parent = some b := by
    rintro a b ⟨k, hk, rfl, hb⟩
    rcases (hmem k).mp hk with rfl | hk
    · exact .inr ⟨rfl, mem_parents_single.mp hb⟩
    · exact .inl ⟨k, hk, rfl, hb⟩
  -- no calendar has the new one as a parent, since parents were there before
  have hback : ∀ p, p ≠ r.nextId → ¬ ReflTransGen r.HasParent p r.nextId := by
    intro p hp hpath
    rcases hpath.cases_tail with heq | ⟨a, -, ha⟩
    · exact hp heq.symm
    · obtain ⟨c, hc, hid⟩ := h.closed a r.nextId ha
      exact h.ne_nextId hc hid
  constructor
  · intro k hk
    rcases (hmem k).mp hk with rfl | hk
    · exact divideTime_single
    · exact h.chained k hk
  · intro a b hab
    have hold : ∃ c ∈ r.calendars.rows, c.id = b := by
      rcases hedge a b hab with hab | ⟨-, hb⟩
      · exact h.closed a b hab
      · exact hparent b hb
    obtain ⟨c, hc, hid⟩ := hold
    exact ⟨c, (hmem c).mpr (.inr hc), hid⟩
  · refine acyclic_of_optional_edge hedge ?_ h.acyclic
    intro p hp
    obtain ⟨c, hc, hid⟩ := hparent p hp
    exact hback p (hid ▸ h.ne_nextId hc)
  · intro k hk
    rcases (hmem k).mp hk with rfl | hk
    · show r.nextId.value < next.value
      omega
    · have := h.fresh k hk
      show k.id.value < next.value
      omega

theorem wellFormed_erase {r : Registry} (h : r.WellFormed) {c : Calendar}
    (hfree : ∀ other ∈ r.calendars.rows, other.id ≠ c.id → c.id ∉ other.parents) :
    WellFormed { r with calendars := r.calendars.erase c.id.value } := by
  have hedge : ∀ a b, HasParent { r with calendars := r.calendars.erase c.id.value } a b →
      r.HasParent a b ∧ b ≠ c.id := by
    rintro a b ⟨k, hk, rfl, hb⟩
    obtain ⟨hk, hne⟩ := mem_erase.mp hk
    exact ⟨⟨k, hk, rfl, hb⟩, fun heq => hfree k hk hne (heq ▸ hb)⟩
  constructor
  · intro k hk
    exact h.chained k (mem_erase.mp hk).1
  · intro a b hab
    obtain ⟨k, hk, rfl⟩ := h.closed a b (hedge a b hab).1
    exact ⟨k, mem_erase.mpr ⟨hk, (hedge a _ hab).2⟩, rfl⟩
  · exact h.acyclic.mono fun a b hab => (hedge a b hab).1
  · intro k hk
    exact h.fresh k (mem_erase.mp hk).1

theorem WellFormed.change {r r' : Registry} (h : r.WellFormed) (hchange : Change r r') :
    r'.WellFormed := by
  cases hchange with
  | added _ _ hparent hnext =>
      refine wellFormed_add h ?_ hnext
      intro p hp
      obtain ⟨c, hc, hid | hcp⟩ := hparent p hp
      · exact ⟨c, hc, hid⟩
      · exact h.closed c.id p ⟨c, hc, rfl, hcp⟩
  | @renamed c name hc _ _ =>
      exact wellFormed_put_of_parents h hc rfl (h.chained c hc) fun _ hp => hp
  | removed _ hfree => exact wellFormed_erase h hfree
  | reparented hc hparent => exact wellFormed_setParent h hc hparent
  | @edited c c' hc hedited =>
      exact wellFormed_put_of_parents h hc hedited.id_eq (hedited.divideTime (h.chained c hc))
        fun _ => hedited.mem_parents.mp

theorem WellFormed.perform {r r' : Registry} (h : r.WellFormed) {op : Operation}
    (hop : r.perform op = .ok r') : r'.WellFormed :=
  invariant_of_changes (fun _ _ => WellFormed.change) h (changes_of_perform hop)

end WorkingTime.Registry
