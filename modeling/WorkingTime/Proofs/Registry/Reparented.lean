/-
Which parents a calendar can be given.

A new parent takes the place of the one that the current version has, so the
graph loses an edge and gains one; but the search for cycles is made before that,
in the graph that still has the old edge.  This refuses nothing that could be
accepted: a path to the calendar, which is what the search looks for, gets there
without going through an edge from it (`path_until`).  So a parent is given
exactly when the graph that comes of it has no cycle (`setParent_iff_acyclic`).
-/
import WorkingTime.Proofs.Registry.Reachable

namespace WorkingTime.Registry

open Relation (ReflTransGen TransGen)

variable {r r' : Registry} {c : Calendar} {p : CalendarId} {parent : Option CalendarId}

/-! ## The graph with the new parent -/

/-- The edges when the current version of `c` has this parent, or none, and all
other versions keep theirs: those from other calendars, those of the superseded
versions of `c`, and the new one. -/
def ReparentedEdge (r : Registry) (c : Calendar) (parent : Option CalendarId)
    (a b : CalendarId) : Prop :=
  r.HasParent a b ∧ a ≠ c.id ∨
    a = c.id ∧ ((∃ v ∈ c.superseded, v.parent = some b) ∨ parent = some b)

theorem hasParent_setParent_iff {a b : CalendarId} :
    (r.put (c.setParent parent)).HasParent a b ↔ r.ReparentedEdge c parent a b := by
  rw [hasParent_put_iff, mem_parents_setParent_iff, ReparentedEdge]
  rfl

theorem ReparentedEdge.old_or_new (hc : c ∈ r.calendars.rows) {a b : CalendarId}
    (h : r.ReparentedEdge c parent a b) : r.HasParent a b ∨ a = c.id ∧ parent = some b := by
  rcases h with ⟨hab, -⟩ | ⟨rfl, ⟨v, hv, hb⟩ | hb⟩
  · exact .inl hab
  · exact .inl ⟨c, hc, rfl, Calendar.mem_parents.mpr ⟨v, Calendar.mem_versions.mpr (.inl hv), hb⟩⟩
  · exact .inr ⟨rfl, hb⟩

/-- The new parent closes a cycle when it leads to the calendar in the graph as
it was. -/
theorem acyclic_reparented_iff (h : r.Acyclic) (hc : c ∈ r.calendars.rows) :
    (∀ id, ¬ TransGen (r.ReparentedEdge c (some p)) id id) ↔
      ¬ ReflTransGen r.HasParent p c.id := by
  constructor
  · intro hacyclic hback
    have hkept : ReflTransGen (r.ReparentedEdge c (some p)) p c.id :=
      ReflTransGen.mono (fun _ _ hab => .inl hab) _ _ (path_until hback)
    exact hacyclic c.id (.head' (.inr ⟨rfl, .inr rfl⟩) hkept)
  · intro hback
    refine acyclic_of_optional_edge (fun _ _ hab => hab.old_or_new hc) ?_ h
    rintro q ⟨⟩
    exact hback

/-! ## What setting a parent answers -/

theorem setParent_none (hc : c ∈ r.calendars.rows) :
    r.setParent c.id none = .ok (r.put (c.setParent none)) := by
  rw [setParent, get_id hc]
  rfl

theorem setParent_some (hc : c ∈ r.calendars.rows) (hp : ∃ k ∈ r.calendars.rows, k.id = p) :
    r.setParent c.id (some p) =
      if r.reaches p c.id then .error (.cyclicParent c.id p)
      else .ok (r.put (c.setParent (some p))) := by
  obtain ⟨k, hk, rfl⟩ := hp
  rw [setParent, get_id hc]
  simp only [Answer.ok_bind, Answer.discard_bind, get_id hk]
  split <;> rfl

theorem setParent_of_missing (hc : c ∈ r.calendars.rows) (hp : ∀ k ∈ r.calendars.rows, k.id ≠ p) :
    r.setParent c.id (some p) = .error (.unknownId p) := by
  rw [setParent, get_id hc]
  simp only [Answer.ok_bind, Answer.discard_bind, get_eq_error hp]
  rfl

theorem exists_of_path (hc : c ∈ r.calendars.rows) (h : ReflTransGen r.HasParent p c.id) :
    ∃ k ∈ r.calendars.rows, k.id = p := by
  rcases h.cases_head with rfl | ⟨_, ⟨k, hk, hid, -⟩, -⟩
  · exact ⟨c, hc, rfl⟩
  · exact ⟨k, hk, hid⟩

theorem setParent_eq_cyclic_iff (hc : c ∈ r.calendars.rows) {a b : CalendarId} :
    r.setParent c.id (some p) = .error (.cyclicParent a b) ↔
      a = c.id ∧ b = p ∧ ReflTransGen r.HasParent p c.id := by
  constructor
  · intro h
    by_cases hp : ∃ k ∈ r.calendars.rows, k.id = p
    · rw [setParent_some hc hp] at h
      split at h
      next hreaches =>
        cases h
        exact ⟨rfl, rfl, reaches_iff.mp hreaches⟩
      · cases h
    · rw [setParent_of_missing hc fun k hk hid => hp ⟨k, hk, hid⟩] at h
      cases h
  · rintro ⟨rfl, rfl, h⟩
    rw [setParent_some hc (exists_of_path hc h), if_pos (reaches_iff.mpr h)]

theorem setParent_eq_ok_iff (hc : c ∈ r.calendars.rows) :
    (∃ r', r.setParent c.id (some p) = .ok r') ↔
      (∃ k ∈ r.calendars.rows, k.id = p) ∧ ¬ ReflTransGen r.HasParent p c.id := by
  constructor
  · rintro ⟨r', hr⟩
    obtain ⟨k, hk, hid, hparent, -⟩ := of_setParent hr
    obtain rfl := eq_of_id_eq hk hc hid
    exact hparent p rfl
  · rintro ⟨hp, hback⟩
    exact ⟨_, (setParent_some hc hp).trans (if_neg (mt reaches_iff.mp hback))⟩

/-- A calendar can be given a parent exactly when this is a calendar and the graph
with the new edge in place of the old one has no cycle, which is the graph that
there is then; a cycle is reported, and of these two calendars, exactly when the
parent is the calendar itself or leads to it through any versions; and a calendar
can always do without a parent. -/
theorem setParent_iff_acyclic (h : r.Reachable) (hc : c ∈ r.calendars.rows) (p : CalendarId) :
    ((∃ r', r.setParent c.id (some p) = .ok r') ↔
        (∃ k ∈ r.calendars.rows, k.id = p) ∧
          ∀ id, ¬ TransGen (r.ReparentedEdge c (some p)) id id) ∧
      (∀ a b, r.setParent c.id (some p) = .error (.cyclicParent a b) ↔
        a = c.id ∧ b = p ∧ (p = c.id ∨ TransGen r.HasParent p c.id)) ∧
      ((∀ k ∈ r.calendars.rows, k.id ≠ p) → r.setParent c.id (some p) = .error (.unknownId p)) ∧
      (∃ r', r.setParent c.id none = .ok r') ∧
      ∀ parent r', r.setParent c.id parent = .ok r' →
        ∀ a b, r'.HasParent a b ↔ r.ReparentedEdge c parent a b := by
  refine ⟨?_, ?_, setParent_of_missing hc, ⟨_, setParent_none hc⟩, ?_⟩
  · rw [setParent_eq_ok_iff hc, acyclic_reparented_iff h.wellFormed.acyclic hc]
  · intro a b
    rw [setParent_eq_cyclic_iff hc, Relation.reflTransGen_iff_eq_or_transGen, @eq_comm _ c.id p]
  · intro parent r' hr a b
    obtain ⟨k, hk, hid, -, rfl⟩ := of_setParent hr
    obtain rfl := eq_of_id_eq hk hc hid
    exact hasParent_setParent_iff

/-- `derivedHistory`, after which the current version of "Summer" has no parent
any more, while the superseded one still has "Standard". -/
abbrev orphanHistory : List Operation :=
  derivedHistory ++ [.setParent summerId none]

/-- "Summer" can get "Winter" as its parent, but not become that of "Standard",
to which its superseded version still leads. -/
theorem setParent_iff_acyclic_orphan :
    (∃ r', (empty.after orphanHistory).setParent summerId (some ⟨3, by decide⟩) = .ok r') ∧
      (empty.after orphanHistory).setParent ⟨1, by decide⟩ (some summerId) =
        .error (.cyclicParent ⟨1, by decide⟩ summerId) := by
  have hreach : (empty.after orphanHistory).Reachable := Reachable.empty.after _
  have hup : ∀ k ∈ (empty.after orphanHistory).calendars.rows, ∀ b ∈ k.parents,
      b.value = 1 ∧ k.id.value ≠ 1 := by
    decide +kernel
  constructor
  · obtain ⟨c, hc, hid⟩ : ∃ c ∈ (empty.after orphanHistory).calendars.rows, c.id = summerId := by
      decide +kernel
    rw [← hid]
    refine (setParent_iff_acyclic hreach hc ⟨3, by decide⟩).1.mpr ⟨by decide +kernel, ?_⟩
    refine acyclic_of_rank (fun id => if id.value = 1 then 0 else if id.value = 3 then 1 else 2) ?_
    intro a b hab
    rcases hab.old_or_new hc with ⟨k, hk, rfl, hb⟩ | ⟨rfl, hb⟩
    · obtain ⟨hone, hne⟩ := hup k hk b hb
      simp only [hone, hne, if_true, if_false]
      split <;> decide
    · obtain rfl := Option.some.inj hb
      rw [hid]
      decide
  · obtain ⟨c, hc, hid⟩ : ∃ c ∈ (empty.after orphanHistory).calendars.rows,
        c.id = ⟨1, by decide⟩ := by
      decide +kernel
    have hedge : ∃ k ∈ (empty.after orphanHistory).calendars.rows,
        k.id = summerId ∧ ⟨1, by decide⟩ ∈ k.parents := by
      decide +kernel
    rw [← hid] at hedge ⊢
    exact ((setParent_iff_acyclic hreach hc summerId).2.1 _ _).mpr
      ⟨rfl, rfl, .inr (.single hedge)⟩

end WorkingTime.Registry
