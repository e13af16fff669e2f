/-
Which lists of stored calendars make a registry, and which registry they make.

The checks stop at the first violation, and they go in the order of the list as
far as names and ids are concerned; parents are followed in a graph that may
still have cycles.  None of this shows in what is accepted: when the names have
no blanks around them, the calendars have to be `Consistent`, which speaks of
them as a set and of their parents as a graph, and the registry has these
calendars and an id after all of theirs (`ofCalendars_eq_ok_iff_consistent`).
So the order of the list does not matter (`ofCalendars_accepts`).  Whether the
versions of a calendar divide time is not asked here: that is a condition on making
the calendar (`Calendar.ofVersions`).

Names with blanks around them are another matter, since the order decides which
of two names is compared without them; see `NamesApart`.
-/
import WorkingTime.Proofs.Registry.Assembly
import Mathlib.Data.List.Perm.Basic

namespace WorkingTime.Registry

open Relation (ReflTransGen TransGen)

variable {cs cs' : List Calendar} {nextId : CalendarId} {r : Registry}

/-! ## The largest id -/

/-- The largest of the ids as a number, 0 when there are no calendars. -/
def largestId (cs : List Calendar) : Nat :=
  (cs.map (·.id.value)).max?.getD 0

theorem largestId_eq_foldl (cs : List Calendar) :
    largestId cs = (cs.map (·.id.value)).foldl max 0 := by
  rw [largestId, List.foldl_max, Nat.zero_max]

theorem largestId_of_perm (h : cs.Perm cs') : largestId cs = largestId cs' := by
  rw [largestId_eq_foldl, largestId_eq_foldl, (h.map _).foldl_eq 0]

theorem foldl_max_value (cs : List Calendar) (id : CalendarId) :
    (cs.foldl (fun id c => id.max c.id) id).value =
      (cs.map (·.id.value)).foldl max id.value := by
  induction cs generalizing id with
  | nil => rfl
  | cons c cs ih => rw [List.foldl_cons, ih, CalendarId.max_value, List.map_cons, List.foldl_cons]

theorem highestId_value (r : Registry) : r.highestId.value = largestId r.calendars.rows := by
  rw [highestId, foldl_max_value, largestId_eq_foldl]

/-! ## Calendars that fit together -/

/-- What calendars have to be to make a registry: each has a name and an id of
its own, an id is left after the largest one, every parent of any version is one
of the calendars, and none of them is its own ancestor. -/
structure Consistent (cs : List Calendar) : Prop where
  named : ∀ c ∈ cs, c.name ≠ ""
  distinctNames : (cs.map (·.name)).Nodup
  distinctIds : (cs.map (·.id)).Nodup
  room : largestId cs < UInt64.size - 1
  closed : ∀ a b, ParentIn cs a b → ∃ c ∈ cs, c.id = b
  acyclic : ∀ id, ¬ TransGen (ParentIn cs) id id

theorem parentIn_of_perm (h : cs.Perm cs') : ParentIn cs = ParentIn cs' := by
  funext a b
  simp only [ParentIn, h.mem_iff]

theorem Consistent.perm (h : Consistent cs) (hperm : cs.Perm cs') : Consistent cs' where
  named c hc := h.named c (hperm.mem_iff.mpr hc)
  distinctNames := (hperm.map _).nodup_iff.mp h.distinctNames
  distinctIds := (hperm.map _).nodup_iff.mp h.distinctIds
  room := largestId_of_perm hperm ▸ h.room
  closed a b hab := by
    obtain ⟨c, hc, hid⟩ := h.closed a b (parentIn_of_perm hperm ▸ hab)
    exact ⟨c, hperm.mem_iff.mp hc, hid⟩
  acyclic := parentIn_of_perm hperm ▸ h.acyclic

theorem namesApart_iff_nodup (htrim : ∀ c ∈ cs, Text.trimmed c.name = c.name) :
    NamesApart cs ↔ (cs.map (·.name)).Nodup := by
  rw [NamesApart, List.Nodup, List.pairwise_map]
  refine List.Pairwise.iff_of_mem ?_
  intro a b _ hb
  rw [htrim b hb]

theorem rows_foldl_put_perm (hids : (cs.map (·.id)).Nodup) :
    (cs.foldl put empty).calendars.rows.Perm cs :=
  (List.perm_ext_iff_of_nodup (nodup_map_id _).of_map hids.of_map).mpr fun _ => mem_foldl_put hids

/-- The check of parents, as a condition on the list that the calendars came in. -/
theorem checkParents_iff_of_perm (h : r.calendars.rows.Perm cs) :
    r.checkParents = .ok () ↔
      (∀ a b, ParentIn cs a b → ∃ c ∈ cs, c.id = b) ∧ ∀ id, ¬ TransGen (ParentIn cs) id id := by
  have hgraph : r.HasParent = ParentIn cs := parentIn_of_perm h
  constructor
  · intro hparents
    refine ⟨?_, hgraph ▸ acyclic_of_checkParents hparents⟩
    intro a b hab
    obtain ⟨c, hc, hid⟩ := (checkParents_eq_ok_iff.mp hparents a b (hgraph ▸ hab)).1
    exact ⟨c, h.mem_iff.mp hc, hid⟩
  · rintro ⟨hclosed, hacyclic⟩
    refine checkParents_eq_ok_iff.mpr ?_
    rw [hgraph]
    intro a b hab
    obtain ⟨c, hc, hid⟩ := hclosed a b hab
    exact ⟨⟨c, h.mem_iff.mpr hc, hid⟩, fun hback => hacyclic a (.head' hab hback)⟩

/-! ## Acceptance -/

/-- The calendars make a registry when they are consistent, and then it is the
one with these calendars and the next id that is asked for, if it is past theirs. -/
theorem ofCalendars_eq_ok_iff_consistent (htrim : ∀ c ∈ cs, Text.trimmed c.name = c.name) :
    ofCalendars cs nextId = .ok r ↔
      Consistent cs ∧ r.calendars.rows.Perm cs ∧
        r.nextId.value = max nextId.value (largestId cs + 1) := by
  rw [ofCalendars_eq_ok_iff]
  constructor
  · rintro ⟨named, hnamed, hr, hparents⟩
    obtain ⟨hvisible, hapart, hids, rfl⟩ := foldlM_admitStored_eq_ok_iff.mp hnamed
    obtain ⟨free, hfree, rfl⟩ := reserveIds_eq_ok_iff.mp hr
    have hperm := rows_foldl_put_perm hids
    have hvalue := CalendarId.next?_eq_some_iff.mp hfree
    rw [highestId_value, largestId_of_perm hperm] at hvalue
    obtain ⟨hclosed, hacyclic⟩ := (checkParents_iff_of_perm hperm).mp hparents
    have hlt := free.isLt
    refine ⟨⟨?_, (namesApart_iff_nodup htrim).mp hapart, hids, by omega, hclosed, hacyclic⟩,
      hperm, ?_⟩
    · intro c hc
      rw [← htrim c hc]
      exact hvisible c hc
    · rw [CalendarId.max_value, hvalue]
  · rintro ⟨h, hperm, hnext⟩
    have hrows := rows_foldl_put_perm h.distinctIds
    have hroom := h.room
    let free : CalendarId := ⟨largestId cs + 1, by omega⟩
    refine ⟨cs.foldl put empty, foldlM_admitStored_eq_ok_iff.mpr
      ⟨?_, (namesApart_iff_nodup htrim).mpr h.distinctNames, h.distinctIds, rfl⟩,
      reserveIds_eq_ok_iff.mpr ⟨free, ?_, ?_⟩,
      (checkParents_iff_of_perm hperm).mpr ⟨h.closed, h.acyclic⟩⟩
    · intro c hc
      rw [htrim c hc]
      exact h.named c hc
    · rw [CalendarId.next?_eq_some_iff, highestId_value, largestId_of_perm hrows]
    · have hcalendars : r.calendars = (cs.foldl put empty).calendars := by
        refine Table.eq_of_mem_iff ?_
        intro c
        rw [hperm.mem_iff, hrows.mem_iff]
      have hid : r.nextId = nextId.max free := by
        refine CalendarId.ext ?_
        rw [hnext, CalendarId.max_value]
      rw [← hcalendars, ← hid]

/-- Calendars whose names have no blanks around them are accepted exactly when
they are consistent; they are kept as they are, with the next id that was asked
for or the first one past theirs; and any other order of them gives the same. -/
theorem ofCalendars_accepts (htrim : ∀ c ∈ cs, Text.trimmed c.name = c.name) :
    ((∃ r, ofCalendars cs nextId = .ok r) ↔ Consistent cs) ∧
      (∀ r, ofCalendars cs nextId = .ok r → r.calendars.rows.Perm cs ∧
        r.nextId.value = max nextId.value (largestId cs + 1)) ∧
      ∀ cs', cs'.Perm cs → ∀ r, ofCalendars cs' nextId = .ok r ↔ ofCalendars cs nextId = .ok r := by
  refine ⟨⟨?_, ?_⟩, ?_, ?_⟩
  · rintro ⟨r, hr⟩
    exact ((ofCalendars_eq_ok_iff_consistent htrim).mp hr).1
  · intro h
    have hroom := h.room
    let free : CalendarId := ⟨largestId cs + 1, by omega⟩
    refine ⟨⟨(cs.foldl put empty).calendars, nextId.max free⟩,
      (ofCalendars_eq_ok_iff_consistent htrim).mpr ⟨h, rows_foldl_put_perm h.distinctIds, ?_⟩⟩
    exact CalendarId.max_value nextId free
  · intro r hr
    exact ((ofCalendars_eq_ok_iff_consistent htrim).mp hr).2
  · intro cs' hperm r
    have htrim' : ∀ c ∈ cs', Text.trimmed c.name = c.name := by
      intro c hc
      exact htrim c (hperm.mem_iff.mp hc)
    rw [ofCalendars_eq_ok_iff_consistent htrim, ofCalendars_eq_ok_iff_consistent htrim',
      largestId_of_perm hperm]
    constructor
    · rintro ⟨h, hrows, hnext⟩
      exact ⟨h.perm hperm, hrows.trans hperm, hnext⟩
    · rintro ⟨h, hrows, hnext⟩
      exact ⟨h.perm hperm.symm, hrows.trans hperm.symm, hnext⟩

/-- Three calendars, of which the first has had the third as its parent and now
has the second; the parent of the third is left open. -/
def relatives (parent : Option CalendarId) : List Calendar :=
  [⟨⟨7, by decide⟩, "Shop", [{ parent := some ⟨5, by decide⟩, expires := some ⟨100, by decide⟩ }],
      { parent := some ⟨9, by decide⟩, validFrom := some ⟨100, by decide⟩ }⟩,
   ⟨⟨9, by decide⟩, "Region", [], {}⟩,
   ⟨⟨5, by decide⟩, "Standard", [], { parent }⟩]

theorem consistent_relatives : Consistent (relatives none) := by
  have hparents : ∀ c ∈ relatives none, ∀ b ∈ c.parents,
      (∃ k ∈ relatives none, k.id = b) ∧ c.id.value = 7 ∧ b.value ≠ 7 := by
    decide +kernel
  refine ⟨by decide +kernel, by decide +kernel, by decide +kernel, by decide +kernel, ?_, ?_⟩
  · rintro a b ⟨c, hc, -, hb⟩
    exact (hparents c hc b hb).1
  · refine acyclic_of_rank (fun id => if id.value = 7 then 1 else 0) ?_
    rintro _ b ⟨c, hc, rfl, hb⟩
    obtain ⟨-, hseven, hother⟩ := hparents c hc b hb
    simp only [hseven, hother, if_true, if_false]
    decide

/-- The calendars are accepted in any order, but not when the parent that is left
open closes a cycle through the superseded version of the first one. -/
theorem ofCalendars_accepts_relatives :
    (∀ c ∈ relatives none, Text.trimmed c.name = c.name) ∧
      (∀ cs, cs.Perm (relatives none) →
        ∃ r, ofCalendars cs ⟨2, by decide⟩ = .ok r ∧ r.nextId.value = 10) ∧
      ¬ Consistent (relatives (some ⟨7, by decide⟩)) := by
  have htrim : ∀ c ∈ relatives none, Text.trimmed c.name = c.name := by
    decide +kernel
  refine ⟨htrim, ?_, ?_⟩
  · intro cs hcs
    obtain ⟨haccepted, hkept, hperm⟩ :=
      @ofCalendars_accepts (relatives none) ⟨2, by decide⟩ htrim
    obtain ⟨r, hr⟩ := haccepted.mpr consistent_relatives
    exact ⟨r, (hperm cs hcs r).mpr hr, (hkept r hr).2⟩
  · intro h
    have hup : ∃ c ∈ relatives (some ⟨7, by decide⟩),
        c.id = ⟨7, by decide⟩ ∧ ⟨5, by decide⟩ ∈ c.parents := by
      decide +kernel
    have hback : ∃ c ∈ relatives (some ⟨7, by decide⟩),
        c.id = ⟨5, by decide⟩ ∧ ⟨7, by decide⟩ ∈ c.parents := by
      decide +kernel
    exact h.acyclic _ (.head hup (.single hback))

end WorkingTime.Registry
