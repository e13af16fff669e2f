/-
Lineages by recursion over parents.

In a well-formed registry parents are well-founded, since there are only
finitely many ids and no calendar is its own ancestor.  A lineage then is what
one expects, the calendar and the lineage of the parent that the chosen version
has (`lineage_of_mem`): taking calendars out of the ones that remain never takes
out an ancestor.
-/
import WorkingTime.Proofs.Registry.Operation
import WorkingTime.Proofs.Registry.Invariant
import Mathlib.Data.Fintype.EquivFin
import Mathlib.Order.WellFounded

namespace WorkingTime

open Relation (ReflTransGen TransGen)

instance : Finite CalendarId :=
  Finite.of_injective (fun id => (⟨id.value, id.isLt⟩ : Fin UInt64.size)) fun _ _ h =>
    CalendarId.ext (congrArg Fin.val h)

/-- Where there are finitely many things, no cycle means no endless descent. -/
theorem wellFounded_of_acyclic {α : Type} [Finite α] {R : α → α → Prop}
    (h : ∀ a, ¬ TransGen R a a) : WellFounded R := by
  have : Std.Irrefl (TransGen R) := ⟨h⟩
  exact Subrelation.wf TransGen.single (Finite.wellFounded_of_trans_of_irrefl (TransGen R))

namespace Registry

variable {r : Registry} {pick : Calendar → Version}

/-- What holds of a calendar when it holds of all parents of its versions,
holds of every calendar. -/
theorem WellFormed.parent_induction (h : r.WellFormed) {P : CalendarId → Prop}
    (hstep : ∀ id, (∀ p, r.HasParent id p → P p) → P id) (id : CalendarId) : P id := by
  have hwf : WellFounded (Function.swap r.HasParent) :=
    wellFounded_of_acyclic fun a hcycle => h.acyclic a (Relation.transGen_swap.mp hcycle)
  induction id using hwf.induction with
  | h id ih => exact hstep id ih

/-! ## One step of a climb -/

theorem climb_of_missing {remaining : List Calendar} {id : CalendarId}
    (h : ∀ c ∈ remaining, c.id ≠ id) : climb pick remaining id = .error (.unknownId id) := by
  have hfind : remaining.find? (fun c => c.id == id) = none := by simpa using h
  rw [climb.eq_def]
  split
  · rfl
  next c hsome => simp [hfind] at hsome

theorem climb_of_mem {remaining : List Calendar} {c : Calendar} (hc : c ∈ remaining)
    (hids : ∀ a ∈ remaining, ∀ b ∈ remaining, a.id = b.id → a = b) :
    climb pick remaining c.id =
      match (pick c).parent with
      | none => .ok [c]
      | some p => (c :: ·) <$> climb pick (without c.id remaining) p := by
  rw [climb.eq_def]
  split
  next hnone => simpa using List.find?_eq_none.mp hnone c hc
  next k hfind =>
    have hk : k.id = c.id := by simpa using List.find?_some hfind
    obtain rfl : k = c := hids k (List.mem_of_find?_eq_some hfind) c hc hk
    rfl

/-! ## Lineages -/

theorem hasParent_of_pick (hpick : ∀ c, pick c ∈ c.versions) {c : Calendar} {p : CalendarId}
    (hc : c ∈ r.calendars.rows) (hp : (pick c).parent = some p) : r.HasParent c.id p :=
  ⟨c, hc, rfl, Calendar.mem_parents.mpr ⟨pick c, hpick c, hp⟩⟩

theorem climb_eq_lineage (h : r.WellFormed) (hpick : ∀ c, pick c ∈ c.versions)
    (id : CalendarId) : ∀ remaining : List Calendar, (∀ c ∈ remaining, c ∈ r.calendars.rows) →
      (∀ c ∈ r.calendars.rows, ReflTransGen r.HasParent id c.id → c ∈ remaining) →
        climb pick remaining id = r.lineage pick id := by
  induction id using h.parent_induction with
  | hstep id ih =>
      intro remaining hold hremain
      by_cases hid : ∃ c ∈ r.calendars.rows, c.id = id
      · obtain ⟨c, hc, rfl⟩ := hid
        have hcr : c ∈ remaining := hremain c hc .refl
        rw [lineage, climb_of_mem hcr fun a ha b hb => eq_of_id_eq (hold a ha) (hold b hb),
          climb_of_mem hc fun a ha b hb => eq_of_id_eq ha hb]
        cases hp : (pick c).parent with
        | none => rfl
        | some p =>
            have hedge : r.HasParent c.id p := hasParent_of_pick hpick hc hp
            -- an ancestor of the parent is not the calendar that was taken out
            have hother : ∀ k, ReflTransGen r.HasParent p k → k ≠ c.id := by
              rintro k hpath rfl
              exact h.acyclic _ (.head' hedge hpath)
            have hrest : climb pick (without c.id remaining) p = r.lineage pick p := by
              refine ih p hedge _ ?_ ?_
              · intro k hk
                exact hold k (mem_without.mp hk).1
              · intro k hk hpath
                exact mem_without.mpr ⟨hremain k hk (hpath.head hedge), hother k.id hpath⟩
            have hrows : climb pick (without c.id r.calendars.rows) p = r.lineage pick p := by
              refine ih p hedge _ ?_ ?_
              · intro k hk
                exact (mem_without.mp hk).1
              · intro k hk hpath
                exact mem_without.mpr ⟨hk, hother k.id hpath⟩
            show (c :: ·) <$> climb pick (without c.id remaining) p =
              (c :: ·) <$> climb pick (without c.id r.calendars.rows) p
            rw [hrest, hrows]
      · have hmissing : ∀ c ∈ r.calendars.rows, c.id ≠ id := by
          intro c hc heq
          exact hid ⟨c, hc, heq⟩
        rw [lineage, climb_of_missing hmissing,
          climb_of_missing fun c hc => hmissing c (hold c hc)]

theorem lineage_of_mem (h : r.WellFormed) (hpick : ∀ c, pick c ∈ c.versions) {c : Calendar}
    (hc : c ∈ r.calendars.rows) :
    r.lineage pick c.id =
      match (pick c).parent with
      | none => .ok [c]
      | some p => (c :: ·) <$> r.lineage pick p := by
  rw [lineage, climb_of_mem hc fun a ha b hb => eq_of_id_eq ha hb]
  cases hp : (pick c).parent with
  | none => rfl
  | some p =>
      have hedge : r.HasParent c.id p := hasParent_of_pick hpick hc hp
      have hrest : climb pick (without c.id r.calendars.rows) p = r.lineage pick p := by
        refine climb_eq_lineage h hpick p _ ?_ ?_
        · intro k hk
          exact (mem_without.mp hk).1
        · intro k hk hpath
          refine mem_without.mpr ⟨hk, ?_⟩
          intro heq
          exact h.acyclic c.id (.head' hedge (heq ▸ hpath))
      exact congrArg ((c :: ·) <$> ·) hrest

/-! ## Versions along a lineage -/

theorem versionsAlong_of_missing {id : CalendarId} (h : ∀ c ∈ r.calendars.rows, c.id ≠ id) :
    r.versionsAlong pick id = .error (.unknownId id) := by
  rw [versionsAlong, lineage, climb_of_missing h]
  rfl

theorem versionsAlong_of_mem (h : r.WellFormed) (hpick : ∀ c, pick c ∈ c.versions)
    {c : Calendar} (hc : c ∈ r.calendars.rows) :
    r.versionsAlong pick c.id =
      match (pick c).parent with
      | none => .ok [pick c]
      | some p => (pick c :: ·) <$> r.versionsAlong pick p := by
  rw [versionsAlong, lineage_of_mem h hpick hc]
  cases (pick c).parent with
  | none => rfl
  | some p =>
      show List.map pick <$> (c :: ·) <$> r.lineage pick p =
        (pick c :: ·) <$> List.map pick <$> r.lineage pick p
      cases r.lineage pick p <;> rfl

/-- The lineage of a calendar begins with it and goes on with that of its
parent; it never leads to a missing calendar. -/
theorem versionsAlong_cons (h : r.WellFormed) (hpick : ∀ c, pick c ∈ c.versions) {c : Calendar}
    (hc : c ∈ r.calendars.rows) :
    ∃ rest, r.versionsAlong pick c.id = .ok (pick c :: rest) ∧
      ((pick c).parent = none → rest = []) ∧
        ∀ p, (pick c).parent = some p → r.versionsAlong pick p = .ok rest := by
  suffices ∀ id, ∀ c ∈ r.calendars.rows, c.id = id →
      ∃ rest, r.versionsAlong pick c.id = .ok (pick c :: rest) ∧
        ((pick c).parent = none → rest = []) ∧
          ∀ p, (pick c).parent = some p → r.versionsAlong pick p = .ok rest from
    this c.id c hc rfl
  intro id
  induction id using h.parent_induction with
  | hstep id ih =>
      rintro c hc rfl
      rw [versionsAlong_of_mem h hpick hc]
      cases hp : (pick c).parent with
      | none => exact ⟨[], rfl, fun _ => rfl, fun p heq => by cases heq⟩
      | some p =>
          have hedge := hasParent_of_pick hpick hc hp
          obtain ⟨k, hk, rfl⟩ := h.closed c.id p hedge
          obtain ⟨rest, hrest, -, -⟩ := ih k.id hedge k hk rfl
          refine ⟨pick k :: rest, Answer.map_eq_ok_iff.mpr ⟨_, hrest, rfl⟩,
            (fun heq => by cases heq), ?_⟩
          rintro p ⟨⟩
          exact hrest

/-- The first calendar is there, and the version chosen for it has the second one
as its parent. -/
def ChosenParent (r : Registry) (pick : Calendar → Version) (id parent : CalendarId) : Prop :=
  ∃ c ∈ r.calendars.rows, c.id = id ∧ (pick c).parent = some parent

/-- What a calendar is answered from is the same in two registries when the same
versions are chosen in them on the way up from it. -/
theorem versionsAlong_congr {r' : Registry} {pick' : Calendar → Version} (h : r.WellFormed)
    (h' : r'.WellFormed) (hpick : ∀ c, pick c ∈ c.versions)
    (hpick' : ∀ c, pick' c ∈ c.versions) (id : CalendarId)
    (hsame : ∀ k, ReflTransGen (r.ChosenParent pick) id k → ∀ v,
      (∃ c ∈ r'.calendars.rows, c.id = k ∧ pick' c = v) ↔
        ∃ c ∈ r.calendars.rows, c.id = k ∧ pick c = v) :
    r'.versionsAlong pick' id = r.versionsAlong pick id := by
  induction id using h.parent_induction with
  | hstep id ih =>
      by_cases hid : ∃ c ∈ r.calendars.rows, c.id = id
      · obtain ⟨c, hc, rfl⟩ := hid
        obtain ⟨c', hc', hid, hv⟩ := (hsame c.id .refl (pick c)).mpr ⟨c, hc, rfl, rfl⟩
        rw [← hid, versionsAlong_of_mem h' hpick' hc', hid, versionsAlong_of_mem h hpick hc, hv]
        cases hp : (pick c).parent with
        | none => rfl
        | some p =>
            have hrest : r'.versionsAlong pick' p = r.versionsAlong pick p := by
              refine ih p (hasParent_of_pick hpick hc hp) ?_
              intro k hk
              exact hsame k (hk.head ⟨c, hc, rfl, hp⟩)
            exact congrArg ((pick c :: ·) <$> ·) hrest
      · have hmissing : ∀ c ∈ r.calendars.rows, c.id ≠ id := fun c hc heq => hid ⟨c, hc, heq⟩
        have hmissing' : ∀ c ∈ r'.calendars.rows, c.id ≠ id := by
          rintro c hc rfl
          obtain ⟨k, hk, hkid, -⟩ := (hsame c.id .refl (pick' c)).mp ⟨c, hc, rfl, rfl⟩
          exact hmissing k hk hkid
        rw [versionsAlong_of_missing hmissing, versionsAlong_of_missing hmissing']

end Registry

end WorkingTime
