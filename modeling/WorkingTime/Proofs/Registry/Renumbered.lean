/-
Registries that differ in their ids alone.

`Renumbered f r r'` says that `f` matches the calendars of `r` with those of
`r'`: they have the same names and the same versions, and their parents are
matched too.  Which ids there are shows nowhere but in ids.  An operation on `r`
and the one on `r'` that names the matching calendars therefore have answers
that are alike, and what they make of the two registries is matched again, by `f`
or, after a calendar was made, by `f` with the two new ids put in
(`Renumbered.perform`).
-/
import WorkingTime.Proofs.Calendar.Renumber
import WorkingTime.Proofs.Registry.Agreement
import WorkingTime.Proofs.Registry.Frame
import WorkingTime.Proofs.Registry.Names

namespace WorkingTime

open Relation (ReflTransGen)

/-! ## The same rules under other ids -/

theorem Version.counterpart_renumber (v : Version) {f : CalendarId → CalendarId} :
    v.Counterpart f (v.renumber f) where
  week := rfl
  exceptions := rfl
  parent := rfl

theorem Calendar.counterpart_renumber (c : Calendar) {f : CalendarId → CalendarId} :
    c.Counterpart f (c.renumber f) where
  id_eq := rfl
  current := c.current.counterpart_renumber
  versionAt d := by
    rw [c.versionAt_renumber]
    exact (c.versionAt d).counterpart_renumber

/-! ## Operations on the matching calendars -/

namespace Operation

/-- The operation with other ids for the calendars that it names.  Commands name
none by its id. -/
def renumber (f : CalendarId → CalendarId) : Operation → Operation
  | create name => .create name
  | derive parent name => .derive (f parent) name
  | copy source name => .copy (f source) name
  | rename id name => .rename (f id) name
  | remove id => .remove (f id)
  | setParent id parent => .setParent (f id) (parent.map f)
  | edit id e => .edit (f id) e
  | apply command => .apply command
  | applyAll commands => .applyAll commands

/-- The ids by which an operation names calendars. -/
def named : Operation → List CalendarId
  | create _ | apply _ | applyAll _ => []
  | derive id _ | copy id _ | rename id _ | remove id | edit id _ => [id]
  | setParent id parent => id :: parent.toList

end Operation

namespace Registry

/-! ## Matching registries -/

/-- The calendars of `r'` are those of `r` with the ids that `f` has for them, no
two of them with one id. -/
structure Renumbered (f : CalendarId → CalendarId) (r r' : Registry) : Prop where
  injective : ∀ a ∈ r.calendars.rows, ∀ b ∈ r.calendars.rows, f a.id = f b.id → a.id = b.id
  carried : ∀ c ∈ r.calendars.rows, c.renumber f ∈ r'.calendars.rows
  covered : ∀ c' ∈ r'.calendars.rows, ∃ c ∈ r.calendars.rows, c.renumber f = c'

namespace Renumbered

variable {f g : CalendarId → CalendarId} {r r' : Registry} {c : Calendar}

/-! ## Looking up -/

theorem get (h : Renumbered f r r') (hc : c ∈ r.calendars.rows) :
    r'.get (f c.id) = .ok (c.renumber f) :=
  get_id (h.carried c hc)

/-- Names are found alike on both sides.  Where two calendars have the name, the
search ends with the one of the lower id, and so may end differently; but a name
that can be searched for belongs to one calendar. -/
theorem find (h : Renumbered f r r') (hlabelled : r.Labelled) (text : String) :
    Answer.Alike (fun c c' => c ∈ r.calendars.rows ∧ c' = c.renumber f) (r.find text)
      (r'.find text) := by
  cases hfind : r.find text with
  | ok c =>
      obtain ⟨hc, hname⟩ := mem_of_find hfind
      obtain ⟨c', hfind'⟩ := find_of_mem (h.carried c hc) hname
      obtain ⟨hc', hname'⟩ := mem_of_find hfind'
      obtain ⟨k, hk, rfl⟩ := h.covered c' hc'
      have hproper : IsName c.name := by
        refine ⟨by rw [hname, Text.trimmed_trimmed], ?_⟩
        intro hempty
        exact hlabelled.visible c hc (by rw [hempty]; rfl)
      have hid : c.id = k.id := hlabelled.distinct c hc k hk hproper (hname.trans hname'.symm)
      obtain rfl : c = k := eq_of_id_eq hc hk hid
      rw [hfind']
      exact .ok ⟨hc, rfl⟩
  | error e =>
      cases hfind' : r'.find text with
      | error e' => exact .error
      | ok c' =>
          obtain ⟨hc', hname'⟩ := mem_of_find hfind'
          obtain ⟨k, hk, rfl⟩ := h.covered c' hc'
          obtain ⟨c, hc⟩ := find_of_mem hk hname'
          cases hfind.symm.trans hc

theorem idOf (h : Renumbered f r r') (hlabelled : r.Labelled) (text : String) :
    Answer.Alike (fun a a' => a' = f a ∧ ∃ c ∈ r.calendars.rows, c.id = a) (r.idOf text)
      (r'.idOf text) := by
  refine (h.find hlabelled text).map ?_
  rintro c _ ⟨hc, rfl⟩
  exact ⟨rfl, c, hc, rfl⟩

theorem hasName (h : Renumbered f r r') (name : String) : r'.hasName name = r.hasName name := by
  rw [Bool.eq_iff_iff, hasName_iff, hasName_iff]
  constructor
  · rintro ⟨c', hc', rfl⟩
    obtain ⟨c, hc, rfl⟩ := h.covered c' hc'
    exact ⟨c, hc, rfl⟩
  · rintro ⟨c, hc, rfl⟩
    exact ⟨_, h.carried c hc, rfl⟩

/-! ## Parents -/

theorem mem_parents_iff (h : Renumbered f r r') (hwf : r.WellFormed) (hc : c ∈ r.calendars.rows)
    {k : Calendar} (hk : k ∈ r.calendars.rows) :
    f k.id ∈ (c.renumber f).parents ↔ k.id ∈ c.parents := by
  rw [Calendar.parents_renumber, List.mem_map]
  constructor
  · rintro ⟨p, hp, heq⟩
    obtain ⟨a, ha, rfl⟩ := hwf.closed c.id p ⟨c, hc, rfl, hp⟩
    rwa [← h.injective a ha k hk heq]
  · intro hp
    exact ⟨k.id, hp, rfl⟩

theorem path (h : Renumbered f r r') {a b : CalendarId} (hpath : ReflTransGen r.HasParent a b) :
    ReflTransGen r'.HasParent (f a) (f b) := by
  refine hpath.lift f ?_
  rintro _ p ⟨c, hc, rfl, hp⟩
  refine ⟨_, h.carried c hc, rfl, ?_⟩
  rw [Calendar.parents_renumber]
  exact List.mem_map_of_mem hp

/-- A path on the other side begins with a calendar that is matched, and so is
the image of a path on this side. -/
theorem path_of_renumbered (h : Renumbered f r r') (hwf : r.WellFormed)
    (hc : c ∈ r.calendars.rows) {b' : CalendarId}
    (hpath : ReflTransGen r'.HasParent (f c.id) b') :
    ∃ k ∈ r.calendars.rows, f k.id = b' ∧ ReflTransGen r.HasParent c.id k.id := by
  induction hpath with
  | refl => exact ⟨c, hc, rfl, .refl⟩
  | tail _ hedge ih =>
      obtain ⟨k, hk, rfl, hpath⟩ := ih
      obtain ⟨a', ha', hid, hp⟩ := hedge
      obtain ⟨a, ha, rfl⟩ := h.covered a' ha'
      obtain rfl : a = k := eq_of_id_eq ha hk (h.injective a ha k hk hid)
      rw [Calendar.parents_renumber] at hp
      obtain ⟨p, hparent, rfl⟩ := List.mem_map.mp hp
      have hedge : r.HasParent a.id p := ⟨a, ha, rfl, hparent⟩
      obtain ⟨b, hb, rfl⟩ := hwf.closed a.id p hedge
      exact ⟨b, hb, rfl, hpath.tail hedge⟩

theorem reaches (h : Renumbered f r r') (hwf : r.WellFormed) (hc : c ∈ r.calendars.rows)
    {k : Calendar} (hk : k ∈ r.calendars.rows) :
    r'.reaches (f c.id) (f k.id) = r.reaches c.id k.id := by
  rw [Bool.eq_iff_iff, reaches_iff, reaches_iff]
  constructor
  · intro hpath
    obtain ⟨a, ha, hid, hpath⟩ := h.path_of_renumbered hwf hc hpath
    rwa [← h.injective a ha k hk hid]
  · exact h.path

/-! ## Other calendars -/

theorem congr (h : Renumbered f r r') (hwf : r.WellFormed)
    (hg : ∀ c ∈ r.calendars.rows, g c.id = f c.id) : Renumbered g r r' := by
  have hrenumber : ∀ c ∈ r.calendars.rows, c.renumber g = c.renumber f := by
    intro c hc
    refine Calendar.renumber_congr (hg c hc) ?_
    intro p hp
    obtain ⟨k, hk, rfl⟩ := hwf.closed c.id p ⟨c, hc, rfl, hp⟩
    exact hg k hk
  constructor
  · intro a ha b hb heq
    exact h.injective a ha b hb (by rwa [hg a ha, hg b hb] at heq)
  · intro c hc
    rw [hrenumber c hc]
    exact h.carried c hc
  · intro c' hc'
    obtain ⟨c, hc, rfl⟩ := h.covered c' hc'
    exact ⟨c, hc, hrenumber c hc⟩

/-- Two calendars that match may be put in the place of two that do, or where
there are none. -/
theorem put (h : Renumbered f r r')
    (hapart : ∀ k ∈ r.calendars.rows, f k.id = f c.id → k.id = c.id) :
    Renumbered f (r.put c) (r'.put (c.renumber f)) where
  injective a ha b hb heq := by
    rcases mem_put.mp ha with rfl | ⟨ha₀, -⟩
    · rcases mem_put.mp hb with rfl | ⟨hb₀, -⟩
      · rfl
      · exact (hapart b hb₀ heq.symm).symm
    · rcases mem_put.mp hb with rfl | ⟨hb₀, -⟩
      · exact hapart a ha₀ heq
      · exact h.injective a ha₀ b hb₀ heq
  carried k hk := by
    rcases mem_put.mp hk with rfl | ⟨hk, hne⟩
    · exact mem_put.mpr (.inl rfl)
    · exact mem_put.mpr (.inr ⟨h.carried k hk, fun heq => hne (hapart k hk heq)⟩)
  covered k' hk' := by
    rcases mem_put.mp hk' with rfl | ⟨hk', hne⟩
    · exact ⟨c, mem_put.mpr (.inl rfl), rfl⟩
    · obtain ⟨k, hk, rfl⟩ := h.covered k' hk'
      exact ⟨k, mem_put.mpr (.inr ⟨hk, fun heq => hne (congrArg f heq)⟩), rfl⟩

theorem put_of_mem (h : Renumbered f r r') {c₁ : Calendar} (hc : c ∈ r.calendars.rows)
    (hid : c₁.id = c.id) : Renumbered f (r.put c₁) (r'.put (c₁.renumber f)) :=
  h.put fun k hk heq => (h.injective k hk c hc (hid ▸ heq)).trans hid.symm

theorem erase (h : Renumbered f r r') (hc : c ∈ r.calendars.rows) :
    Renumbered f { r with calendars := r.calendars.erase c.id.value }
      { r' with calendars := r'.calendars.erase (f c.id).value } where
  injective a ha b hb := h.injective a (mem_erase.mp ha).1 b (mem_erase.mp hb).1
  carried k hk := by
    obtain ⟨hk, hne⟩ := mem_erase.mp hk
    exact mem_erase.mpr ⟨h.carried k hk, fun heq => hne (h.injective k hk c hc heq)⟩
  covered k' hk' := by
    obtain ⟨hk', hne⟩ := mem_erase.mp hk'
    obtain ⟨k, hk, rfl⟩ := h.covered k' hk'
    exact ⟨k, mem_erase.mpr ⟨hk, fun heq => hne (congrArg f heq)⟩, rfl⟩

theorem added (h : Renumbered f r r') (hwf : r.WellFormed) (hwf' : r'.WellFormed) (name : String)
    {v : Version} (hparent : ∀ p ∈ v.parent, ∃ c ∈ r.calendars.rows, c.id = p) :
    Renumbered (Function.update f r.nextId r'.nextId) (r.put (.single r.nextId name v))
      (r'.put (.single r'.nextId name (v.renumber f))) := by
  have hold : ∀ c ∈ r.calendars.rows, Function.update f r.nextId r'.nextId c.id = f c.id :=
    fun c hc => Function.update_of_ne (hwf.ne_nextId hc) _ _
  have hnew : Function.update f r.nextId r'.nextId r.nextId = r'.nextId :=
    Function.update_self _ _ _
  have hrules : v.renumber (Function.update f r.nextId r'.nextId) = v.renumber f := by
    refine Version.renumber_congr ?_
    intro p hp
    obtain ⟨c, hc, rfl⟩ := hparent p hp
    exact hold c hc
  have hsingle : (Calendar.single r.nextId name v).renumber (Function.update f r.nextId r'.nextId) =
      .single r'.nextId name (v.renumber f) := by
    rw [Calendar.renumber_single, hnew, hrules]
  rw [← hsingle]
  refine (h.congr hwf hold).put ?_
  intro k hk heq
  rw [hold k hk] at heq
  exact absurd (heq.trans hnew) (hwf'.ne_nextId (h.carried k hk))

/-! ## Operations -/

theorem availableName (h : Renumbered f r r') (text : String) :
    r'.availableName text = r.availableName text := by
  simp only [Registry.availableName, h.hasName]

theorem add (h : Renumbered f r r') (hwf : r.WellFormed) (hwf' : r'.WellFormed)
    (hroom : r.nextId.value + 1 < UInt64.size) (hroom' : r'.nextId.value + 1 < UInt64.size)
    (text : String) {v : Version} (hparent : ∀ p ∈ v.parent, ∃ c ∈ r.calendars.rows, c.id = p) :
    Answer.Alike (fun x x' => Renumbered (Function.update f r.nextId r'.nextId) x.2 x'.2)
      (r.add text v) (r'.add text (v.renumber f)) := by
  simp only [Registry.add, h.availableName, allocateId_of_room hroom, allocateId_of_room hroom']
  cases r.availableName text with
  | error e => exact .error
  | ok name =>
      have hput := h.added hwf hwf' name hparent
      exact .ok ⟨hput.injective, hput.carried, hput.covered⟩

theorem exists_other_iff (h : Renumbered f r r') (hc : c ∈ r.calendars.rows)
    {P Q : Calendar → Prop} (hPQ : ∀ k ∈ r.calendars.rows, Q (k.renumber f) ↔ P k) :
    (∃ k' ∈ r'.calendars.rows, k'.id ≠ f c.id ∧ Q k') ↔
      ∃ k ∈ r.calendars.rows, k.id ≠ c.id ∧ P k := by
  constructor
  · rintro ⟨k', hk', hne, hk⟩
    obtain ⟨k, hmem, rfl⟩ := h.covered k' hk'
    exact ⟨k, hmem, fun heq => hne (congrArg f heq), (hPQ k hmem).mp hk⟩
  · rintro ⟨k, hmem, hne, hk⟩
    exact ⟨_, h.carried k hmem, fun heq => hne (h.injective k hmem c hc heq), (hPQ k hmem).mpr hk⟩

theorem rename (h : Renumbered f r r') (hc : c ∈ r.calendars.rows) (text : String) :
    Answer.Alike (Renumbered f) (r.rename c.id text) (r'.rename (f c.id) text) := by
  have htaken : ∀ name, (r.calendars.rows.any fun k => k.id != c.id && k.name == name) ↔
      r'.calendars.rows.any fun k => k.id != f c.id && k.name == name := by
    intro name
    simp only [List.any_eq_true, Bool.and_eq_true, bne_iff_ne, beq_iff_eq]
    exact (h.exists_other_iff hc (P := (·.name = name)) (Q := (·.name = name))
      fun _ _ => Iff.rfl).symm
  simp only [Registry.rename, get_id hc, h.get hc]
  cases checkName text with
  | error e => exact .error
  | ok name =>
      refine Answer.alike_refuse (htaken name) ?_
      exact .ok (h.put_of_mem hc rfl)

theorem remove (h : Renumbered f r r') (hwf : r.WellFormed) (hc : c ∈ r.calendars.rows) :
    Answer.Alike (fun x x' => Renumbered f x.2 x'.2) (r.remove c.id) (r'.remove (f c.id)) := by
  have hfree : r'.dependant? (f c.id) = none ↔ r.dependant? c.id = none := by
    have hused := h.exists_other_iff hc (P := (c.id ∈ ·.parents)) (Q := (f c.id ∈ ·.parents))
      fun k hk => h.mem_parents_iff hwf hk hc
    rw [dependant?_eq_none_iff, dependant?_eq_none_iff]
    simpa only [not_exists, not_and] using not_congr hused
  simp only [Registry.remove, get_id hc, h.get hc]
  cases hd : r.dependant? c.id with
  | none =>
      rw [hfree.mpr hd]
      exact .ok (h.erase hc)
  | some other =>
      cases hd' : r'.dependant? (f c.id) with
      | none => cases hd.symm.trans (hfree.mp hd')
      | some other' => exact .error

theorem setParent (h : Renumbered f r r') (hwf : r.WellFormed) (hc : c ∈ r.calendars.rows)
    {parent : Option CalendarId} (hparent : ∀ p ∈ parent, ∃ k ∈ r.calendars.rows, k.id = p) :
    Answer.Alike (Renumbered f) (r.setParent c.id parent)
      (r'.setParent (f c.id) (parent.map f)) := by
  have hput : Renumbered f (r.put (c.setParent parent))
      (r'.put ((c.renumber f).setParent (parent.map f))) := h.put_of_mem hc rfl
  rw [Registry.setParent, Registry.setParent, get_id hc, h.get hc]
  cases parent with
  | none => exact .ok hput
  | some p =>
      obtain ⟨k, hk, rfl⟩ := hparent p rfl
      have hback : r.reaches k.id c.id ↔ r'.reaches (f k.id) (f c.id) := by
        rw [h.reaches hwf hk hc]
      simp only [Option.map_some, get_id hk, h.get hk]
      refine Answer.alike_refuse hback ?_
      exact .ok hput

theorem edit (h : Renumbered f r r') (hc : c ∈ r.calendars.rows) (e : Calendar.Edit) :
    Answer.Alike (Renumbered f) (r.edit c.id e.run) (r'.edit (f c.id) e.run) := by
  rw [edit_eq_put hc, ← c.renumber_id f, edit_eq_put (h.carried c hc), Calendar.Edit.run_renumber]
  cases hrun : e.run c with
  | error e => exact .error
  | ok c₁ => exact .ok (h.put_of_mem hc (Calendar.Edit.edited_of_run hrun).id_eq)

/-- Operations that name matching calendars answer alike, and the calendars are
matched again afterwards.  The next id may be given to a new calendar; of all
other ids nothing changes. -/
theorem perform (h : Renumbered f r r') (hwf : r.WellFormed) (hwf' : r'.WellFormed)
    (hroom : r.nextId.value + 1 < UInt64.size) (hroom' : r'.nextId.value + 1 < UInt64.size)
    {op : Operation} (htarget : ∃ id, op.target r = some id)
    (hnamed : ∀ id ∈ op.named, ∃ c ∈ r.calendars.rows, c.id = id) :
    Answer.Alike (fun x x' => ∃ g, (∀ id, id ≠ r.nextId → g id = f id) ∧ Renumbered g x x')
      (r.perform op) (r'.perform (op.renumber f)) := by
  have hkept : ∀ x x', Renumbered f x x' →
      ∃ g, (∀ id, id ≠ r.nextId → g id = f id) ∧ Renumbered g x x' :=
    fun x x' hx => ⟨f, fun _ _ => rfl, hx⟩
  have hmade : ∀ x x', Renumbered (Function.update f r.nextId r'.nextId) x x' →
      ∃ g, (∀ id, id ≠ r.nextId → g id = f id) ∧ Renumbered g x x' :=
    fun x x' hx => ⟨_, fun id hid => Function.update_of_ne hid _ _, hx⟩
  cases op with
  | create name =>
      refine (h.add hwf hwf' hroom hroom' name (v := {}) (by simp)).map ?_
      exact fun x x' => hmade x.2 x'.2
  | derive parent name =>
      obtain ⟨c, hc, rfl⟩ := hnamed parent List.mem_cons_self
      have hparent : ∀ p ∈ (Version.derivedFrom c.id).parent, ∃ k ∈ r.calendars.rows, k.id = p :=
        fun p hp => ⟨c, hc, Option.some.inj hp⟩
      have hadd := h.add hwf hwf' hroom hroom' name hparent
      show Answer.Alike _ ((·.2) <$> r.derive c.id name) ((·.2) <$> r'.derive (f c.id) name)
      rw [derive_eq_add hc, ← c.renumber_id f, derive_eq_add (h.carried c hc)]
      exact hadd.map fun x x' => hmade x.2 x'.2
  | copy source name =>
      obtain ⟨c, hc, rfl⟩ := hnamed source List.mem_cons_self
      have hparent : ∀ p ∈ c.current.parent, ∃ k ∈ r.calendars.rows, k.id = p :=
        fun p hp => hwf.closed c.id p (hasParent_of_pick Calendar.current_mem_versions hc hp)
      have hadd := h.add hwf hwf' hroom hroom' name hparent
      show Answer.Alike _ ((·.2) <$> r.copy c.id name) ((·.2) <$> r'.copy (f c.id) name)
      rw [copy_eq_add hc, ← c.renumber_id f, copy_eq_add (h.carried c hc)]
      exact hadd.map fun x x' => hmade x.2 x'.2
  | rename id name =>
      obtain ⟨c, hc, rfl⟩ := hnamed id List.mem_cons_self
      exact (h.rename hc name).mono fun x x' _ _ => hkept x x'
  | remove id =>
      obtain ⟨c, hc, rfl⟩ := hnamed id List.mem_cons_self
      exact (h.remove hwf hc).map fun x x' => hkept x.2 x'.2
  | setParent id parent =>
      obtain ⟨c, hc, rfl⟩ := hnamed id List.mem_cons_self
      have hparent : ∀ p ∈ parent, ∃ k ∈ r.calendars.rows, k.id = p := by
        intro p hp
        exact hnamed p (List.mem_cons_of_mem _ (Option.mem_toList.mpr hp))
      exact (h.setParent hwf hc hparent).mono fun x x' _ _ => hkept x x'
  | edit id e =>
      obtain ⟨c, hc, rfl⟩ := hnamed id List.mem_cons_self
      exact (h.edit hc e).mono fun x x' _ _ => hkept x x'
  -- commands have no target, since they go by names
  | apply command =>
      obtain ⟨id, hid⟩ := htarget
      cases hid
  | applyAll commands =>
      obtain ⟨id, hid⟩ := htarget
      cases hid

/-! ## Answers -/

theorem sameAnswers (h : Renumbered f r r') (hwf : r.WellFormed) (hwf' : r'.WellFormed)
    (hc : c ∈ r.calendars.rows) : SameAnswers r c.id r' (f c.id) := by
  refine sameAnswers_of_counterparts hwf hwf' hc ?_
  intro k hk _
  exact ⟨k.renumber f, h.carried k hk, k.counterpart_renumber⟩

end Renumbered

end Registry

end WorkingTime
