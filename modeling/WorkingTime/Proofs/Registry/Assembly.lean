/-
When stored calendars make a registry, and what is known of it then.

Each step of putting a registry together comes with the condition under which
it goes through.  Main statements:

  * `foldlM_admitStored_eq_ok_iff`, `reserveIds_eq_ok_iff`,
    `checkParents_eq_ok_iff`: the conditions of the three steps;
  * `wellFormed_of_ofCalendars`: what comes out is well-formed.
-/
import WorkingTime.Proofs.Registry.Invariant
import Mathlib.Data.List.Induction

namespace WorkingTime.Registry

open Relation (ReflTransGen TransGen)

/-! ## Names and ids -/

theorem admitStored_eq_ok_iff {r r' : Registry} {c : Calendar} :
    r.admitStored c = .ok r' ↔
      Text.trimmed c.name ≠ "" ∧ (∀ k ∈ r.calendars.rows, k.name ≠ Text.trimmed c.name) ∧
        (∀ k ∈ r.calendars.rows, k.id ≠ c.id) ∧ r' = r.put c := by
  have hids : r.calendars.contains c.id.value = true ↔ ¬ ∀ k ∈ r.calendars.rows, k.id ≠ c.id := by
    simp [Table.contains_iff, key_eq_iff]
  simp only [admitStored, Answer.bind_eq_ok_iff, Answer.throw_bind, Answer.refuse_eq_ok_iff,
    Answer.pure_eq_ok_iff, checkName_eq_ok_iff, hasName_iff, hids, not_not]
  constructor
  · rintro ⟨name, ⟨rfl, hne⟩, hfree, hid, rfl⟩
    exact ⟨hne, fun k hk hkn => hfree ⟨k, hk, hkn⟩, hid, rfl⟩
  · rintro ⟨hne, hfree, hid, rfl⟩
    refine ⟨_, ⟨rfl, hne⟩, ?_, hid, rfl⟩
    rintro ⟨k, hk, hkn⟩
    exact hfree k hk hkn

/-- No calendar of a list has the name which that of a later one stands for. -/
def NamesApart (cs : List Calendar) : Prop :=
  cs.Pairwise fun a b => a.name ≠ Text.trimmed b.name

theorem nodup_map_id (r : Registry) : (r.calendars.rows.map (·.id)).Nodup := by
  refine List.pairwise_map.mpr (r.calendars.ascending.imp ?_)
  intro a b hlt heq
  exact Nat.ne_of_lt hlt (key_eq_iff.mpr heq)

theorem foldl_put_calendars (cs : List Calendar) (r : Registry) :
    cs.foldl put r = { r with calendars := cs.foldl Table.insert r.calendars } := by
  induction cs generalizing r with
  | nil => rfl
  | cons c cs ih => exact ih (r.put c)

theorem mem_foldl_put {cs : List Calendar} (hids : (cs.map (·.id)).Nodup) {c : Calendar} :
    c ∈ (cs.foldl put empty).calendars.rows ↔ c ∈ cs := by
  have hkeys : cs.Pairwise fun a b => Keyed.key a ≠ Keyed.key b := by
    refine (List.pairwise_map.mp hids).imp ?_
    intro a b hne hkey
    exact hne (key_eq_iff.mp hkey)
  rw [foldl_put_calendars, Table.mem_foldl_insert hkeys]
  simp [empty, Table.empty]

/-- Stored calendars are admitted one after the other when no name is blank, none
is the name that a later one stands for, and no two ids are the same; and they
are kept as they are. -/
theorem foldlM_admitStored_eq_ok_iff {cs : List Calendar} {r : Registry} :
    cs.foldlM admitStored empty = .ok r ↔
      (∀ c ∈ cs, Text.trimmed c.name ≠ "") ∧ NamesApart cs ∧ (cs.map (·.id)).Nodup ∧
        r = cs.foldl put empty := by
  -- from the end of the list, where the last calendar meets all that came before it
  induction cs using List.reverseRecOn generalizing r with
  | nil =>
      rw [List.foldlM_nil, Answer.pure_eq_ok_iff]
      constructor
      · rintro rfl
        exact ⟨fun c hc => absurd hc List.not_mem_nil, .nil, .nil, rfl⟩
      · rintro ⟨-, -, -, rfl⟩
        rfl
  | append_singleton cs c ih =>
      rw [List.foldlM_append, List.foldl_append, List.forall_mem_append, NamesApart,
        List.pairwise_append, List.map_append, List.nodup_append]
      simp only [List.foldlM_cons, List.foldlM_nil, bind_pure, Answer.bind_eq_ok_iff, ih,
        admitStored_eq_ok_iff, List.foldl_cons, List.foldl_nil]
      constructor
      · rintro ⟨_, ⟨hvisible, hapart, hids, rfl⟩, hc, hfree, hid, rfl⟩
        simp only [mem_foldl_put hids] at hfree hid
        exact ⟨⟨hvisible, by simpa using hc⟩, ⟨hapart, by simp, by simpa using hfree⟩,
          ⟨hids, by simp, by simpa using hid⟩, rfl⟩
      · rintro ⟨⟨hvisible, hc⟩, ⟨hapart, -, hfree⟩, ⟨hids, -, hid⟩, rfl⟩
        refine ⟨_, ⟨hvisible, hapart, hids, rfl⟩, by simpa using hc, ?_, ?_, rfl⟩
        · simp only [mem_foldl_put hids]
          simpa using hfree
        · simp only [mem_foldl_put hids]
          simpa using hid

/-! ## The next id -/

theorem foldl_max_lt_iff {n : Nat} {cs : List Calendar} {id : CalendarId} :
    (cs.foldl (fun id c => id.max c.id) id).value < n ↔
      id.value < n ∧ ∀ c ∈ cs, c.id.value < n := by
  induction cs generalizing id with
  | nil => simp
  | cons c cs ih =>
      rw [List.foldl_cons, ih, CalendarId.max_value, Nat.max_lt, List.forall_mem_cons, and_assoc]

theorem highestId_lt_iff {r : Registry} {n : Nat} :
    r.highestId.value < n ↔ 0 < n ∧ ∀ c ∈ r.calendars.rows, c.id.value < n :=
  foldl_max_lt_iff

theorem reserveIds_eq_ok_iff {r r' : Registry} {nextId : CalendarId} :
    r.reserveIds nextId = .ok r' ↔
      ∃ free, r.highestId.next? = some free ∧ r' = { r with nextId := nextId.max free } := by
  rw [reserveIds]
  cases r.highestId.next? with
  | none => simp
  | some free => simp [eq_comm]

/-! ## Parents -/

theorem checkParent_eq_ok_iff {r : Registry} {a b : CalendarId} :
    r.checkParent a b = .ok () ↔
      (∃ c ∈ r.calendars.rows, c.id = b) ∧ ¬ ReflTransGen r.HasParent b a := by
  simp only [checkParent, Answer.throw_bind, Answer.refuse_eq_ok_iff, Answer.require_eq_ok_iff,
    Answer.pure_eq_ok_iff, reaches_iff, Table.contains_iff, key_eq_iff, and_true]

/-- The check of parents asks that no edge leads to a missing calendar or
closes a cycle. -/
theorem checkParents_eq_ok_iff {r : Registry} :
    r.checkParents = .ok () ↔ ∀ a b, r.HasParent a b →
      (∃ c ∈ r.calendars.rows, c.id = b) ∧ ¬ ReflTransGen r.HasParent b a := by
  simp only [checkParents, Answer.forM_eq_ok_iff, checkParent_eq_ok_iff]
  constructor
  · rintro h a b ⟨c, hc, rfl, hb⟩
    exact h c hc b hb
  · intro h c hc b hb
    exact h c.id b ⟨c, hc, rfl, hb⟩

theorem acyclic_of_checkParents {r : Registry} (h : r.checkParents = .ok ()) : r.Acyclic := by
  intro id hcycle
  obtain ⟨b, hb, hpath⟩ := TransGen.head'_iff.mp hcycle
  exact (checkParents_eq_ok_iff.mp h id b hb).2 hpath

/-! ## The whole assembly -/

theorem ofCalendars_eq_ok_iff {cs : List Calendar} {nextId : CalendarId} {r : Registry} :
    ofCalendars cs nextId = .ok r ↔
      ∃ named, cs.foldlM admitStored empty = .ok named ∧ named.reserveIds nextId = .ok r ∧
        r.checkParents = .ok () := by
  simp only [ofCalendars, Answer.bind_eq_ok_iff, Answer.pure_eq_ok_iff]
  constructor
  · rintro ⟨named, hnamed, r₁, hr, ⟨⟩, hparents, rfl⟩
    exact ⟨named, hnamed, hr, hparents⟩
  · rintro ⟨named, hnamed, hr, hparents⟩
    exact ⟨named, hnamed, r, hr, (), hparents, rfl⟩

theorem wellFormed_of_ofCalendars {cs : List Calendar} {nextId : CalendarId} {r : Registry}
    (hcs : ∀ c ∈ cs, Version.DivideTime c.versions) (h : ofCalendars cs nextId = .ok r) :
    r.WellFormed := by
  obtain ⟨named, hnamed, hr, hparents⟩ := ofCalendars_eq_ok_iff.mp h
  obtain ⟨free, hfree, rfl⟩ := reserveIds_eq_ok_iff.mp hr
  constructor
  · intro c hc
    obtain ⟨-, -, hids, rfl⟩ := foldlM_admitStored_eq_ok_iff.mp hnamed
    exact hcs c ((mem_foldl_put hids).mp hc)
  · intro a b hab
    exact (checkParents_eq_ok_iff.mp hparents a b hab).1
  · exact acyclic_of_checkParents hparents
  · intro c hc
    have hpast := (highestId_lt_iff.mp (Nat.lt_succ_self named.highestId.value)).2 c hc
    have hvalue := CalendarId.next?_eq_some_iff.mp hfree
    show c.id.value < (nextId.max free).value
    rw [CalendarId.max_value]
    omega

end WorkingTime.Registry
