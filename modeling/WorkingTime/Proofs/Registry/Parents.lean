/-
The graph of parents, and the search in it.

`ParentIn cs a b` is the edge the library's prose speaks of: some version of
the calendar `a`, superseded ones included, has the parent `b`.  It is defined
on lists of calendars, since the search goes through what remains of a list.
Main statements:

  * `reaches_iff`: on every registry, cyclic or with missing calendars, the
    search finds the target exactly when a path of edges leads to it;
  * `acyclic_of_edge`: one new edge closes no cycle when its end does not lead
    back to its start.
-/
import WorkingTime.Registry.Ancestry
import WorkingTime.Proofs.Calendar.Edit
import WorkingTime.Proofs.Table
import Mathlib.Logic.Relation

namespace WorkingTime.Registry

open Relation (ReflTransGen TransGen)

/-! ## Edges -/

/-- Some version of a calendar `a` of the list has the parent `b`. -/
def ParentIn (cs : List Calendar) (a b : CalendarId) : Prop :=
  ∃ c ∈ cs, c.id = a ∧ b ∈ c.parents

/-- Some version of the calendar `a` has the parent `b`. -/
def HasParent (r : Registry) : CalendarId → CalendarId → Prop :=
  ParentIn r.calendars.rows

/-- No calendar is its own ancestor through any versions. -/
def Acyclic (r : Registry) : Prop :=
  ∀ id, ¬ TransGen r.HasParent id id

theorem mem_without {id : CalendarId} {cs : List Calendar} {c : Calendar} :
    c ∈ without id cs ↔ c ∈ cs ∧ c.id ≠ id := by
  simp [without]

theorem parentIn_without {id a b : CalendarId} {cs : List Calendar} :
    ParentIn (without id cs) a b ↔ ParentIn cs a b ∧ a ≠ id := by
  constructor
  · rintro ⟨c, hc, rfl, hb⟩
    obtain ⟨hc, hne⟩ := mem_without.mp hc
    exact ⟨⟨c, hc, rfl, hb⟩, hne⟩
  · rintro ⟨⟨c, hc, rfl, hb⟩, hne⟩
    exact ⟨c, mem_without.mpr ⟨hc, hne⟩, rfl, hb⟩

/-! ## The search -/

/-- A path that leaves `id` at all has a last step from it, and avoids it from
then on. -/
theorem path_without (id : CalendarId) {a target : CalendarId} {cs : List Calendar}
    (h : ReflTransGen (ParentIn cs) a target) :
    ReflTransGen (ParentIn (without id cs)) a target ∨
      ∃ p, ParentIn cs id p ∧ ReflTransGen (ParentIn (without id cs)) p target := by
  induction h using ReflTransGen.head_induction_on with
  | refl => exact .inl .refl
  | @head a b hab _ ih =>
      rcases ih with ih | ih
      · by_cases ha : a = id
        · exact .inr ⟨b, ha ▸ hab, ih⟩
        · exact .inl (ih.head (parentIn_without.mpr ⟨hab, ha⟩))
      · exact .inr ih

theorem eq_of_path_of_missing {id target : CalendarId} {cs : List Calendar}
    (hmissing : ∀ c ∈ cs, c.id ≠ id) (h : ReflTransGen (ParentIn cs) id target) :
    id = target := by
  rcases h.cases_head with h | ⟨b, ⟨c, hc, hid, -⟩, -⟩
  · exact h
  · exact absurd hid (hmissing c hc)

/-- The search finds the target exactly when a path leads to it from a pending
calendar through the calendars that remain. -/
theorem reachesFrom_iff {target : CalendarId} {remaining : List Calendar}
    {pending : List CalendarId}
    (hids : ∀ a ∈ remaining, ∀ b ∈ remaining, a.id = b.id → a = b) :
    reachesFrom target remaining pending = true ↔
      ∃ id ∈ pending, ReflTransGen (ParentIn remaining) id target := by
  fun_induction reachesFrom target remaining pending with
  | case1 => simp
  | case2 remaining pending =>
      exact iff_of_true rfl ⟨target, List.mem_cons_self, .refl⟩
  | case3 remaining id pending hne c hfind ih =>
      have hc : c ∈ remaining := List.mem_of_find?_eq_some hfind
      have hid : c.id = id := by simpa using List.find?_some hfind
      have honly : ∀ p, ParentIn remaining id p ↔ p ∈ c.parents := by
        intro p
        constructor
        · rintro ⟨k, hk, hkid, hp⟩
          exact hids k hk c hc (hkid.trans hid.symm) ▸ hp
        · intro hp
          exact ⟨c, hc, hid, hp⟩
      have hids' : ∀ a ∈ without id remaining, ∀ b ∈ without id remaining,
          a.id = b.id → a = b := by
        intro a ha b hb
        exact hids a (mem_without.mp ha).1 b (mem_without.mp hb).1
      rw [ih hids']
      constructor
      · rintro ⟨a, ha, hpath⟩
        have hpath : ReflTransGen (ParentIn remaining) a target :=
          ReflTransGen.mono (fun _ _ h => (parentIn_without.mp h).1) _ _ hpath
        rcases List.mem_append.mp ha with ha | ha
        · exact ⟨id, List.mem_cons_self, hpath.head ((honly a).mpr ha)⟩
        · exact ⟨a, List.mem_cons_of_mem _ ha, hpath⟩
      · rintro ⟨a, ha, hpath⟩
        -- a path that comes to `id` goes on from its last visit there
        rcases path_without id hpath with havoid | ⟨p, hp, hpath'⟩
        · rcases List.mem_cons.mp ha with rfl | ha
          · have := eq_of_path_of_missing (fun k hk => (mem_without.mp hk).2) havoid
            exact absurd this hne
          · exact ⟨a, List.mem_append_right _ ha, havoid⟩
        · exact ⟨p, List.mem_append_left _ ((honly p).mp hp), hpath'⟩
  | case4 remaining id pending hne hfind ih =>
      have hmissing : ∀ c ∈ remaining, c.id ≠ id := by simpa using hfind
      rw [ih hids]
      constructor
      · rintro ⟨a, ha, hpath⟩
        exact ⟨a, List.mem_cons_of_mem _ ha, hpath⟩
      · rintro ⟨a, ha, hpath⟩
        rcases List.mem_cons.mp ha with rfl | ha
        · exact absurd (eq_of_path_of_missing hmissing hpath) hne
        · exact ⟨a, ha, hpath⟩

theorem eq_of_id_eq {r : Registry} {a b : Calendar} (ha : a ∈ r.calendars.rows)
    (hb : b ∈ r.calendars.rows) (h : a.id = b.id) : a = b :=
  Table.eq_of_key_eq ha hb (congrArg CalendarId.value h)

theorem reaches_iff {r : Registry} {start target : CalendarId} :
    r.reaches start target = true ↔ ReflTransGen r.HasParent start target := by
  rw [reaches, reachesFrom_iff fun a ha b hb => eq_of_id_eq ha hb]
  simp [HasParent]

/-! ## Cycles -/

section Graph

variable {α : Type} {R S : α → α → Prop}

/-- A path to a point gets there without leaving it on the way. -/
theorem path_until {c a : α} (h : ReflTransGen R a c) :
    ReflTransGen (fun x y => R x y ∧ x ≠ c) a c := by
  induction h using ReflTransGen.head_induction_on with
  | refl => exact .refl
  | @head a b hab _ ih =>
      by_cases ha : a = c
      · exact ha ▸ .refl
      · exact ih.head ⟨hab, ha⟩

theorem acyclic_of_rank (rank : α → Nat) (h : ∀ a b, R a b → rank b < rank a) (a : α) :
    ¬ TransGen R a a := by
  intro hcycle
  have hdown : ∀ b, TransGen R a b → rank b < rank a := by
    intro b hb
    induction hb with
    | single hab => exact h _ _ hab
    | tail _ hbc ih => exact Nat.lt_trans (h _ _ hbc) ih
  exact Nat.lt_irrefl _ (hdown a hcycle)

/-- A path in a graph with one new edge from `c` to `p` is an old path, or goes
through the new edge once, provided that no old path leads from `p` to `c`. -/
theorem path_of_edge {c p : α} (hS : ∀ a b, S a b → R a b ∨ a = c ∧ b = p)
    (hback : ¬ ReflTransGen R p c) {a b : α} (h : TransGen S a b) :
    TransGen R a b ∨ ReflTransGen R a c ∧ ReflTransGen R p b := by
  induction h with
  | single hab =>
      rcases hS _ _ hab with hab | ⟨rfl, rfl⟩
      · exact .inl (.single hab)
      · exact .inr ⟨.refl, .refl⟩
  | @tail b d _ hbd ih =>
      rcases hS _ _ hbd with hbd | ⟨rfl, rfl⟩
      · rcases ih with hab | ⟨hac, hpb⟩
        · exact .inl (hab.tail hbd)
        · exact .inr ⟨hac, hpb.tail hbd⟩
      · rcases ih with hab | ⟨-, hpb⟩
        · exact .inr ⟨hab.to_reflTransGen, .refl⟩
        · exact absurd hpb hback

theorem acyclic_of_edge {c p : α} (hS : ∀ a b, S a b → R a b ∨ a = c ∧ b = p)
    (hback : ¬ ReflTransGen R p c) (hR : ∀ a, ¬ TransGen R a a) (a : α) : ¬ TransGen S a a := by
  intro h
  rcases path_of_edge hS hback h with h | ⟨hac, hpa⟩
  · exact hR a h
  · exact hback (hpa.trans hac)

theorem acyclic_of_optional_edge {c : α} {o : Option α}
    (hS : ∀ a b, S a b → R a b ∨ a = c ∧ o = some b) (hback : ∀ p ∈ o, ¬ ReflTransGen R p c)
    (hR : ∀ a, ¬ TransGen R a a) (a : α) : ¬ TransGen S a a := by
  cases o with
  | none =>
      intro h
      have hold : ∀ a b, S a b → R a b := fun a b hab => (hS a b hab).resolve_right (by simp)
      exact hR a (TransGen.mono hold _ _ h)
  | some p =>
      refine acyclic_of_edge (c := c) (p := p) ?_ (hback p rfl) hR a
      intro a b hab
      rcases hS a b hab with hab | ⟨ha, hb⟩
      · exact .inl hab
      · exact .inr ⟨ha, (Option.some.inj hb).symm⟩

end Graph

theorem Acyclic.mono {r r' : Registry} (h : r.Acyclic)
    (hsub : ∀ a b, r'.HasParent a b → r.HasParent a b) : r'.Acyclic := by
  intro id hcycle
  exact h id (TransGen.mono hsub _ _ hcycle)

end WorkingTime.Registry
