/-
A registry can always be taken apart.

A calendar is taken out when no version of another calendar, superseded ones
included, has it as its parent.  Parents lead to no cycle, so of any calendars there
is one that none of them has as a parent (`exists_unreferenced`), and of all calendars
one that can be taken out.  What is left is well-formed again, with one calendar
less, so it goes on until nothing is left (`exists_removal_order`).
-/
import WorkingTime.Proofs.Registry.Issued
import WorkingTime.Proofs.Registry.Lineage

namespace WorkingTime.Registry

open Relation (TransGen)

variable {r r' : Registry} {c : Calendar}

/-- Takes out the calendars with these ids, in this order; one that is refused
ends it. -/
def removeInOrder (r : Registry) : List CalendarId → Except RegistryError Registry
  | [] => .ok r
  | id :: ids => do
      let (_, r) ← r.remove id
      r.removeInOrder ids

/-! ## A calendar that is no parent -/

/-- Of any calendars there is one that is no parent of them, through no version. -/
theorem WellFormed.exists_unreferenced (h : r.WellFormed) {group : List Calendar}
    (hgroup : ∀ c ∈ group, c ∈ r.calendars.rows) (hne : group ≠ []) :
    ∃ c ∈ group, ∀ other ∈ group, c.id ∉ other.parents := by
  have hwf : WellFounded r.HasParent := wellFounded_of_acyclic h.acyclic
  obtain ⟨c, hc⟩ := List.exists_mem_of_ne_nil group hne
  obtain ⟨_, ⟨top, htop, rfl⟩, hmin⟩ := hwf.has_min {id | ∃ c ∈ group, c.id = id} ⟨c.id, c, hc, rfl⟩
  refine ⟨top, htop, ?_⟩
  intro other hother hparent
  exact hmin other.id ⟨other, hother, rfl⟩ ⟨other, hgroup other hother, rfl, hparent⟩

theorem remove_of_free (hc : c ∈ r.calendars.rows)
    (hfree : ∀ other ∈ r.calendars.rows, other.id ≠ c.id → c.id ∉ other.parents) :
    r.remove c.id = .ok (c, { r with calendars := r.calendars.erase c.id.value }) := by
  rw [remove, get_id hc, Answer.ok_bind, dependant?_eq_none_iff.mpr hfree]
  rfl

/-! ## One after the other -/

theorem removeInOrder_cons {ids : List CalendarId} (h : r.remove c.id = .ok (c, r')) :
    r.removeInOrder (c.id :: ids) = r'.removeInOrder ids := by
  rw [removeInOrder, h, Answer.ok_bind]

theorem perm_ids_erase (hc : c ∈ r.calendars.rows) :
    (c.id :: ids { r with calendars := r.calendars.erase c.id.value }).Perm r.ids :=
  (Table.perm_cons_erase hc).map Calendar.id

theorem WellFormed.exists_removal_order (h : r.WellFormed) :
    ∃ order, order.Perm r.ids ∧ r.removeInOrder order = .ok { r with calendars := .empty } := by
  -- the induction is on the number of calendars, and the invariant carries it
  induction hn : r.size generalizing r with
  | zero =>
      have hrows : r.calendars = .empty := Table.ext (List.eq_nil_of_length_eq_zero hn)
      refine ⟨[], ?_, ?_⟩
      · rw [ids, hrows]
        exact .nil
      · rw [removeInOrder, ← hrows]
  | succ n ih =>
      have hne : r.calendars.rows ≠ [] := List.ne_nil_of_length_eq_add_one hn
      obtain ⟨c, hc, hfree⟩ := h.exists_unreferenced (fun _ hc => hc) hne
      have hfree' : ∀ other ∈ r.calendars.rows, other.id ≠ c.id → c.id ∉ other.parents :=
        fun other hother _ => hfree other hother
      have hperm := perm_ids_erase hc
      have hsize : size { r with calendars := r.calendars.erase c.id.value } = n := by
        have hlength := hperm.length_eq
        simp only [ids, List.length_cons, List.length_map] at hlength
        exact Nat.succ.inj (hlength.trans hn)
      obtain ⟨order, horder, hremoved⟩ := ih (wellFormed_erase h hfree') hsize
      exact ⟨c.id :: order, (horder.cons c.id).trans hperm,
        (removeInOrder_cons (remove_of_free hc hfree')).trans hremoved⟩

/-- A registry with calendars has one that can be taken out, and there is an order in
which all are taken out, one by one and each without being refused, until the registry
is empty; the next id stays.  Among any calendars there is one that none of them has as
a parent, be it in a current version or in a superseded one, so no group of calendars
keeps itself from being taken out. -/
theorem registry_dismantles (h : r.Reachable) :
    (r.calendars.rows ≠ [] → ∃ c ∈ r.calendars.rows, ∃ r', r.remove c.id = .ok (c, r')) ∧
    (∃ order, order.Perm r.ids ∧ order.length = r.size ∧
      r.removeInOrder order = .ok { r with calendars := .empty }) ∧
    ∀ group : List Calendar, (∀ c ∈ group, c ∈ r.calendars.rows) → group ≠ [] →
      ∃ c ∈ group, ∀ other ∈ group, c.id ∉ other.parents := by
  have hwf := h.wellFormed
  refine ⟨?_, ?_, fun group hgroup hne => hwf.exists_unreferenced hgroup hne⟩
  · intro hne
    obtain ⟨c, hc, hfree⟩ := hwf.exists_unreferenced (fun _ hc => hc) hne
    exact ⟨c, hc, _, remove_of_free hc fun other hother _ => hfree other hother⟩
  · obtain ⟨order, hperm, hremoved⟩ := hwf.exists_removal_order
    exact ⟨order, hperm, hperm.length_eq.trans (List.length_map _), hremoved⟩

/-- "Summer" has "Standard" as its parent in its first version alone, and "Autumn" has
"Summer" in its current one. -/
def mixedHistory : List Operation :=
  derivedHistory ++ [.setParent summerId none, .derive summerId "Autumn"]

/-- "Standard" and "Summer" are refused at first. -/
theorem registry_dismantles_mixed :
    (empty.after mixedHistory).calendars.rows.map (fun c => (c.id.value, c.parents.map (·.value))) =
        [(1, []), (2, [1]), (3, [1]), (4, [2])] ∧
      (empty.after mixedHistory).remove empty.nextId =
        .error (.parentInUse empty.nextId summerId) ∧
      (empty.after mixedHistory).remove summerId =
        .error (.parentInUse summerId ⟨4, by decide⟩) ∧
      ∃ order, order.Perm [empty.nextId, summerId, ⟨3, by decide⟩, ⟨4, by decide⟩] ∧
        (empty.after mixedHistory).removeInOrder order = .ok ⟨.empty, ⟨5, by decide⟩⟩ := by
  refine ⟨by decide +kernel, by decide +kernel, by decide +kernel, ?_⟩
  obtain ⟨-, ⟨order, hperm, -, hremoved⟩, -⟩ :=
    registry_dismantles (Reachable.empty.after mixedHistory)
  have hids : (empty.after mixedHistory).ids =
      [empty.nextId, summerId, ⟨3, by decide⟩, ⟨4, by decide⟩] := by
    decide +kernel
  have hnext : (empty.after mixedHistory).nextId = ⟨5, by decide⟩ := by
    decide +kernel
  exact ⟨order, hids ▸ hperm, hnext ▸ hremoved⟩

end WorkingTime.Registry
