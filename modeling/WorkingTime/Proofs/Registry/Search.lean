/-
The search for an ancestor as a loop without a bound.

The loop keeps the ids it has looked at and a stack of ids that are still to be
looked at.  A round takes the top of the stack: the target ends the search, an id
that was there before is dropped, and a new one is noted and leaves its parents on
the stack, when there is such a calendar.  Nothing counts the rounds, and parents
may go in circles, be named many times over or be missing.  Main statements:

  * `weight_of_searchRound`: a round that goes on takes one from the ids on the
    stack and the parents of new calendars together, so the loop ends;
  * `Covered.exists_pending`: what leads to the target from an id that was looked
    at goes through the stack, so nothing is lost by dropping ids;
  * `search_finds_ancestors`: on every registry the loop ends with the answer of
    `reaches`, which says whether a path of parents leads to the target.
-/
import Mathlib.Algebra.BigOperators.Group.Finset.Basic
import Mathlib.Data.PFun
import WorkingTime.Proofs.Registry.Change

namespace WorkingTime.Registry

open Relation (ReflTransGen TransGen)

/-! ## The loop -/

/-- Where a search stands. -/
structure Search where
  /-- The ids that were looked at. -/
  visited : Finset CalendarId
  /-- The ids that are still to be looked at, the next one first. -/
  pending : List CalendarId

def Search.start (id : CalendarId) : Search :=
  ⟨∅, [id]⟩

/-- The parents of a calendar through any versions, and none of a missing one. -/
def parentsOf (r : Registry) (id : CalendarId) : List CalendarId :=
  match r.calendars.find? id.value with
  | some c => c.parents
  | none => []

/-- One round of the search: it ends with an answer or leaves the search of the
next round. -/
def searchRound (r : Registry) (target : CalendarId) (s : Search) : Bool ⊕ Search :=
  match s.pending with
  | [] => .inl false
  | id :: pending =>
      if id = target then .inl true
      else if id ∈ s.visited then .inr ⟨s.visited, pending⟩
      -- pushed one after the other, so that the last parent is on top
      else .inr ⟨insert id s.visited, (r.parentsOf id).reverse ++ pending⟩

/-- Rounds from a search on, until one ends it; undefined when none does. -/
def search (r : Registry) (target : CalendarId) (s : Search) : Part Bool :=
  PFun.fix (PFun.lift (r.searchRound target)) s

variable {r : Registry} {target id : CalendarId} {s s' : Search}

theorem mem_parentsOf {p : CalendarId} : p ∈ r.parentsOf id ↔ r.HasParent id p := by
  rw [parentsOf]
  constructor
  · intro hp
    cases hfind : r.calendars.find? id.value with
    | none => simp [hfind] at hp
    | some c =>
        rw [hfind] at hp
        obtain ⟨hc, hkey⟩ := Table.find?_eq_some_iff.mp hfind
        exact ⟨c, hc, key_eq_iff.mp hkey, hp⟩
  · rintro ⟨c, hc, hid, hp⟩
    rw [Table.find?_eq_some_iff.mpr ⟨hc, key_eq_iff.mpr hid⟩]
    exact hp

theorem parentsOf_of_missing (h : id ∉ r.calendars.rows.map (·.id)) : r.parentsOf id = [] := by
  refine List.eq_nil_iff_forall_not_mem.mpr ?_
  intro p hp
  obtain ⟨c, hc, hid, -⟩ := mem_parentsOf.mp hp
  exact h (List.mem_map.mpr ⟨c, hc, hid⟩)

theorem searchRound_eq_inl_iff {found : Bool} : r.searchRound target s = .inl found ↔
    s.pending = [] ∧ found = false ∨
      ∃ pending, s.pending = target :: pending ∧ found = true := by
  rw [searchRound]
  cases s.pending with
  | nil => simp [eq_comm]
  | cons id pending =>
      by_cases htarget : id = target
      · simp [htarget, eq_comm]
      · by_cases hvisited : id ∈ s.visited <;> simp [htarget, hvisited]

/-- A search of the next round comes from an id that is not the target: a known one
is dropped, and a new one leaves its parents. -/
theorem searchRound_eq_inr_iff : r.searchRound target s = .inr s' ↔
    ∃ id pending, s.pending = id :: pending ∧ id ≠ target ∧
      (id ∈ s.visited ∧ s' = ⟨s.visited, pending⟩ ∨
        id ∉ s.visited ∧ s' = ⟨insert id s.visited, (r.parentsOf id).reverse ++ pending⟩) := by
  rw [searchRound]
  cases s.pending with
  | nil => simp
  | cons id pending =>
      by_cases htarget : id = target
      · simp [htarget]
      · by_cases hvisited : id ∈ s.visited <;> simp [htarget, hvisited, eq_comm (a := s')]

theorem search_of_inl {found : Bool} (h : r.searchRound target s = .inl found) :
    r.search target s = .some found := by
  have hround : Sum.inl found ∈ Part.some (r.searchRound target s) :=
    Part.mem_some_iff.mpr h.symm
  exact Part.eq_some_iff.mpr (PFun.fix_stop hround)

theorem search_of_inr (h : r.searchRound target s = .inr s') :
    r.search target s = r.search target s' := by
  have hround : Sum.inr s' ∈ Part.some (r.searchRound target s) :=
    Part.mem_some_iff.mpr h.symm
  exact PFun.fix_fwd_eq hround

/-! ## The loop ends -/

/-- The ids on the stack and the parents of the calendars that were not looked at. -/
def searchWeight (r : Registry) (s : Search) : Nat :=
  s.pending.length +
    ∑ id ∈ (r.calendars.rows.map (·.id)).toFinset \ s.visited, (r.parentsOf id).length

theorem sum_parentsOf_insert {visited : Finset CalendarId} (h : id ∉ visited) :
    (r.parentsOf id).length + ∑ id ∈ (r.calendars.rows.map (·.id)).toFinset \ insert id visited,
        (r.parentsOf id).length =
      ∑ id ∈ (r.calendars.rows.map (·.id)).toFinset \ visited, (r.parentsOf id).length := by
  rw [Finset.sdiff_insert]
  by_cases hid : id ∈ r.calendars.rows.map (·.id)
  · exact Finset.add_sum_erase _ (fun id => (r.parentsOf id).length)
      (Finset.mem_sdiff.mpr ⟨List.mem_toFinset.mpr hid, h⟩)
  · have hnew : id ∉ (r.calendars.rows.map (·.id)).toFinset \ visited := by
      intro hmem
      exact hid (List.mem_toFinset.mp (Finset.mem_sdiff.mp hmem).1)
    rw [Finset.erase_eq_of_notMem hnew, parentsOf_of_missing hid, List.length_nil, Nat.zero_add]

theorem weight_of_searchRound (h : r.searchRound target s = .inr s') :
    r.searchWeight s' + 1 = r.searchWeight s := by
  obtain ⟨id, pending, hs, -, ⟨-, rfl⟩ | ⟨hnew, rfl⟩⟩ := searchRound_eq_inr_iff.mp h
  · simp only [searchWeight, hs, List.length_cons]
    omega
  · have hmoved := sum_parentsOf_insert (r := r) hnew
    simp only [searchWeight, hs, List.length_append, List.length_reverse, List.length_cons]
    omega

/-! ## What the search has seen -/

/-- The target was not among the ids that were looked at, and their parents were
looked at or are on the stack. -/
structure Covered (r : Registry) (target : CalendarId) (s : Search) : Prop where
  ne_target : ∀ id ∈ s.visited, id ≠ target
  parents : ∀ id ∈ s.visited, ∀ p, r.HasParent id p → p ∈ s.visited ∨ p ∈ s.pending

/-- A path leads to the target from an id on the stack. -/
def LeadsTo (r : Registry) (target : CalendarId) (s : Search) : Prop :=
  ∃ id ∈ s.pending, ReflTransGen r.HasParent id target

theorem covered_start (r : Registry) (start target : CalendarId) :
    r.Covered target (.start start) where
  ne_target a ha := absurd ha (Finset.notMem_empty a)
  parents a ha := absurd ha (Finset.notMem_empty a)

/-- A path to the target from an id that was looked at goes through the stack. -/
theorem Covered.exists_pending (h : r.Covered target s) (hid : id ∈ s.visited)
    (hpath : ReflTransGen r.HasParent id target) : r.LeadsTo target s := by
  induction hpath using ReflTransGen.head_induction_on with
  | refl => exact absurd rfl (h.ne_target target hid)
  | @head a b hab hpath ih =>
      rcases h.parents a hid b hab with hb | hb
      · exact ih hb
      · exact ⟨b, hb, hpath⟩

theorem Covered.round (h : r.Covered target s) (hround : r.searchRound target s = .inr s') :
    r.Covered target s' := by
  obtain ⟨id, pending, hs, hne, ⟨hold, rfl⟩ | ⟨-, rfl⟩⟩ := searchRound_eq_inr_iff.mp hround
  · refine ⟨h.ne_target, ?_⟩
    intro a ha p hp
    rcases h.parents a ha p hp with hp | hp
    · exact .inl hp
    · rw [hs] at hp
      rcases List.mem_cons.mp hp with rfl | hp
      · exact .inl hold
      · exact .inr hp
  · constructor
    · intro a ha
      rcases Finset.mem_insert.mp ha with rfl | ha
      · exact hne
      · exact h.ne_target a ha
    · intro a ha p hp
      rcases Finset.mem_insert.mp ha with rfl | ha
      · exact .inr (List.mem_append_left _ (List.mem_reverse.mpr (mem_parentsOf.mpr hp)))
      · rcases h.parents a ha p hp with hp | hp
        · exact .inl (Finset.mem_insert_of_mem hp)
        · rw [hs] at hp
          rcases List.mem_cons.mp hp with rfl | hp
          · exact .inl (Finset.mem_insert_self p _)
          · exact .inr (List.mem_append_right _ hp)

/-- A round that goes on neither finds nor loses a path to the target. -/
theorem Covered.leadsTo_iff (h : r.Covered target s)
    (hround : r.searchRound target s = .inr s') : r.LeadsTo target s' ↔ r.LeadsTo target s := by
  have hcovered := h.round hround
  obtain ⟨id, pending, hs, hne, hcases⟩ := searchRound_eq_inr_iff.mp hround
  have hid : id ∈ s'.visited := by
    rcases hcases with ⟨hold, rfl⟩ | ⟨-, rfl⟩
    · exact hold
    · exact Finset.mem_insert_self id _
  have hpending : ∀ a ∈ s'.pending, a ∈ pending ∨ r.HasParent id a := by
    intro a ha
    rcases hcases with ⟨-, rfl⟩ | ⟨-, rfl⟩
    · exact .inl ha
    · rcases List.mem_append.mp ha with ha | ha
      · exact .inr (mem_parentsOf.mp (List.mem_reverse.mp ha))
      · exact .inl ha
  have hkept : ∀ a ∈ pending, a ∈ s'.pending := by
    intro a ha
    rcases hcases with ⟨-, rfl⟩ | ⟨-, rfl⟩
    · exact ha
    · exact List.mem_append_right _ ha
  constructor
  · rintro ⟨a, ha, hpath⟩
    rcases hpending a ha with ha | ha
    · exact ⟨a, hs ▸ List.mem_cons_of_mem id ha, hpath⟩
    · exact ⟨id, hs ▸ List.mem_cons_self, hpath.head ha⟩
  · rintro ⟨a, ha, hpath⟩
    rw [hs] at ha
    rcases List.mem_cons.mp ha with rfl | ha
    · -- the id has left the stack, but it counts as looked at
      exact hcovered.exists_pending hid hpath
    · exact ⟨a, hkept a ha, hpath⟩

/-! ## What it finds -/

theorem leadsTo_of_searchRound {found : Bool} (h : r.searchRound target s = .inl found) :
    found = true ↔ r.LeadsTo target s := by
  rcases searchRound_eq_inl_iff.mp h with ⟨hs, rfl⟩ | ⟨pending, hs, rfl⟩
  · simp [LeadsTo, hs]
  · exact iff_of_true rfl ⟨target, hs ▸ List.mem_cons_self, .refl⟩

/-- A search ends, and says whether its stack leads to the target. -/
theorem Covered.exists_search (h : r.Covered target s) :
    ∃ found, r.search target s = .some found ∧ (found = true ↔ r.LeadsTo target s) := by
  induction hweight : r.searchWeight s using Nat.strong_induction_on generalizing s with
  | _ n ih =>
      cases hround : r.searchRound target s with
      | inl found => exact ⟨found, search_of_inl hround, leadsTo_of_searchRound hround⟩
      | inr s' =>
          have hless := weight_of_searchRound hround
          obtain ⟨found, hsearch, hfound⟩ := ih _ (by omega) (h.round hround) rfl
          exact ⟨found, (search_of_inr hround).trans hsearch,
            hfound.trans (h.leadsTo_iff hround)⟩

/-- On every registry, with circles of parents and missing ones as well, the search
ends with what `reaches` answers, and finds the target exactly when it is the start
or a path of parents leads to it. -/
theorem search_finds_ancestors (r : Registry) (start target : CalendarId) :
    r.search target (.start start) = .some (r.reaches start target) ∧
      (r.reaches start target = true ↔
        target = start ∨ TransGen r.HasParent start target) := by
  obtain ⟨found, hsearch, hfound⟩ := (covered_start r start target).exists_search
  have hreaches : found = r.reaches start target := by
    rw [Bool.eq_iff_iff, hfound, reaches_iff]
    simp [LeadsTo, Search.start]
  refine ⟨hreaches ▸ hsearch, ?_⟩
  rw [reaches_iff, Relation.reflTransGen_iff_eq_or_transGen]

end WorkingTime.Registry
