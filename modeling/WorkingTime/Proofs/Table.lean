/-
Which rows a table has, after each of its operations.

A table is determined by its rows as a set, so every operation is described by
membership alone: `mem_insert`, `mem_erase`, `mem_filter`, `mem_overlay` say
which rows are there, `find?_eq_some_iff` says what looking one up finds, and
`eq_of_mem_iff` turns a comparison of rows into an equation between tables.
Nothing after this file opens `place`.
-/
import WorkingTime.Table
import Mathlib.Data.List.Sort

namespace WorkingTime

open Keyed (key)

namespace Table

variable {α : Type} [Keyed α]

/-! ## Rows and keys -/

instance : Std.Irrefl fun a b : α => key a < key b := ⟨fun a => Nat.lt_irrefl (key a)⟩

theorem eq_of_mem_iff {s t : Table α} (h : ∀ a, a ∈ s.rows ↔ a ∈ t.rows) : s = t :=
  ext (s.ascending.eq_of_mem_iff t.ascending h)

theorem eq_of_key_eq {t : Table α} {a b : α} (ha : a ∈ t.rows) (hb : b ∈ t.rows)
    (h : key a = key b) : a = b := by
  obtain ⟨i, hi, rfl⟩ := List.getElem_of_mem ha
  obtain ⟨j, hj, rfl⟩ := List.getElem_of_mem hb
  have hlt := List.pairwise_iff_getElem.mp t.ascending
  rcases Nat.lt_trichotomy i j with hij | rfl | hij
  · exact absurd h (Nat.ne_of_lt (hlt i j hi hj hij))
  · rfl
  · exact absurd h.symm (Nat.ne_of_lt (hlt j i hj hi hij))

/-! ## Looking up -/

theorem find?_eq_some_iff {t : Table α} {k : Nat} {a : α} :
    t.find? k = some a ↔ a ∈ t.rows ∧ key a = k := by
  constructor
  · intro h
    exact ⟨List.mem_of_find?_eq_some h, by simpa using List.find?_some h⟩
  · rintro ⟨ha, rfl⟩
    cases hf : t.find? (key a) with
    | none => simpa using List.find?_eq_none.mp hf a ha
    | some b =>
        have hk : key b = key a := by simpa using List.find?_some hf
        rw [eq_of_key_eq (List.mem_of_find?_eq_some hf) ha hk]

theorem contains_iff {t : Table α} {k : Nat} :
    t.contains k = true ↔ ∃ a ∈ t.rows, key a = k := by
  simp [contains]

/-! ## Inserting -/

theorem mem_place {a x : α} {l : List α} (h : l.Pairwise fun x y => key x < key y) :
    x ∈ place a l ↔ x = a ∨ x ∈ l ∧ key x ≠ key a := by
  induction l with
  | nil => simp [place]
  | cons b rest ih =>
      obtain ⟨hb, hrest⟩ := List.pairwise_cons.mp h
      rw [place]
      split
      next hlt =>
        have hne : ∀ y ∈ b :: rest, key y ≠ key a := by
          intro y hy
          rcases List.mem_cons.mp hy with rfl | hy
          · omega
          · have := hb y hy; omega
        rw [List.mem_cons]
        exact or_congr_right ⟨fun hx => ⟨hx, hne x hx⟩, And.left⟩
      next hge =>
        split
        next heq =>
          have hne : ∀ y ∈ rest, key y ≠ key a := by
            intro y hy
            have := hb y hy; omega
          rw [List.mem_cons, List.mem_cons]
          constructor
          · rintro (hx | hx)
            · exact .inl hx
            · exact .inr ⟨.inr hx, hne x hx⟩
          · rintro (hx | ⟨rfl | hx, hk⟩)
            · exact .inl hx
            · exact absurd heq.symm hk
            · exact .inr hx
        next hne =>
          rw [List.mem_cons, ih hrest, List.mem_cons]
          constructor
          · rintro (rfl | hx | ⟨hx, hk⟩)
            · exact .inr ⟨.inl rfl, fun hk => hne hk.symm⟩
            · exact .inl hx
            · exact .inr ⟨.inr hx, hk⟩
          · rintro (hx | ⟨hx | hx, hk⟩)
            · exact .inr (.inl hx)
            · exact .inl hx
            · exact .inr (.inr ⟨hx, hk⟩)

theorem mem_insert {t : Table α} {a x : α} :
    x ∈ (t.insert a).rows ↔ x = a ∨ x ∈ t.rows ∧ key x ≠ key a :=
  mem_place t.ascending

theorem mem_insert_of_fresh {t : Table α} {a x : α} (h : ∀ b ∈ t.rows, key b ≠ key a) :
    x ∈ (t.insert a).rows ↔ x = a ∨ x ∈ t.rows :=
  mem_insert.trans (or_congr_right ⟨And.left, fun hx => ⟨hx, h x hx⟩⟩)

/-! ## Leaving out -/

theorem mem_filter {t : Table α} {p : α → Bool} {x : α} :
    x ∈ (t.filter p).rows ↔ x ∈ t.rows ∧ p x = true :=
  List.mem_filter

theorem mem_erase {t : Table α} {k : Nat} {x : α} :
    x ∈ (t.erase k).rows ↔ x ∈ t.rows ∧ key x ≠ k := by
  simp [erase, mem_filter]

theorem erase_eq_self_of_find?_eq_none {t : Table α} {k : Nat} (h : t.find? k = none) :
    t.erase k = t := by
  refine eq_of_mem_iff ?_
  intro x
  rw [mem_erase]
  refine and_iff_left_of_imp ?_
  intro hx heq
  rw [find?_eq_some_iff.mpr ⟨hx, heq⟩] at h
  cases h

theorem insert_eq_self_of_mem {t : Table α} {a : α} (h : a ∈ t.rows) : t.insert a = t := by
  refine eq_of_mem_iff ?_
  intro x
  rw [mem_insert]
  constructor
  · rintro (rfl | ⟨hx, -⟩)
    · exact h
    · exact hx
  · intro hx
    by_cases hkey : key x = key a
    · exact .inl (eq_of_key_eq hx h hkey)
    · exact .inr ⟨hx, hkey⟩

theorem nodup_rows (t : Table α) : t.rows.Nodup :=
  t.ascending.imp fun hlt heq => Nat.ne_of_lt hlt (congrArg key heq)

theorem perm_cons_erase {t : Table α} {a : α} (ha : a ∈ t.rows) :
    (a :: (t.erase (key a)).rows).Perm t.rows := by
  have hnodup : (a :: (t.erase (key a)).rows).Nodup :=
    List.nodup_cons.mpr ⟨fun hmem => (mem_erase.mp hmem).2 rfl, nodup_rows _⟩
  refine (List.perm_ext_iff_of_nodup hnodup t.nodup_rows).mpr ?_
  intro x
  rw [List.mem_cons, mem_erase, ← mem_insert, insert_eq_self_of_mem ha]

theorem perm_insert_of_fresh {t : Table α} {a : α} (h : ∀ b ∈ t.rows, key b ≠ key a) :
    (t.insert a).rows.Perm (a :: t.rows) := by
  have hnodup : (a :: t.rows).Nodup :=
    List.nodup_cons.mpr ⟨fun hmem => h a hmem rfl, t.nodup_rows⟩
  refine (List.perm_ext_iff_of_nodup (nodup_rows _) hnodup).mpr ?_
  intro x
  rw [mem_insert_of_fresh h, List.mem_cons]

/-- The rows of a table determine it, in whatever order they are given. -/
theorem eq_of_perm {s t : Table α} (h : s.rows.Perm t.rows) : s = t :=
  eq_of_mem_iff fun _ => h.mem_iff

/-! ## Looking up afterwards -/

theorem find?_insert_self {t : Table α} {a : α} : (t.insert a).find? (key a) = some a :=
  find?_eq_some_iff.mpr ⟨mem_insert.mpr (.inl rfl), rfl⟩

theorem find?_insert_of_ne {t : Table α} {a : α} {k : Nat} (hk : k ≠ key a) :
    (t.insert a).find? k = t.find? k := by
  refine Option.ext ?_
  intro b
  rw [find?_eq_some_iff, find?_eq_some_iff, mem_insert]
  constructor
  · rintro ⟨rfl | ⟨hb, -⟩, rfl⟩
    · exact absurd rfl hk
    · exact ⟨hb, rfl⟩
  · rintro ⟨hb, rfl⟩
    exact ⟨.inr ⟨hb, hk⟩, rfl⟩

theorem find?_erase_self {t : Table α} {k : Nat} : (t.erase k).find? k = none := by
  refine Option.eq_none_iff_forall_ne_some.mpr ?_
  intro b hb
  obtain ⟨hb, hkey⟩ := find?_eq_some_iff.mp hb
  exact (mem_erase.mp hb).2 hkey

/-! ## Laying one table over another -/

theorem mem_foldl_insert {x : α} {l : List α} {t : Table α}
    (h : l.Pairwise fun a b => key a ≠ key b) :
    x ∈ (l.foldl insert t).rows ↔ x ∈ l ∨ x ∈ t.rows ∧ ∀ a ∈ l, key x ≠ key a := by
  induction l generalizing t with
  | nil => simp
  | cons a l ih =>
      obtain ⟨ha, hl⟩ := List.pairwise_cons.mp h
      rw [List.foldl_cons, ih hl, mem_insert, List.mem_cons, List.forall_mem_cons]
      constructor
      · rintro (hx | ⟨rfl | ⟨hx, hne⟩, hfresh⟩)
        · exact .inl (.inr hx)
        · exact .inl (.inl rfl)
        · exact .inr ⟨hx, hne, hfresh⟩
      · rintro ((rfl | hx) | ⟨hx, hne, hfresh⟩)
        · exact .inr ⟨.inl rfl, ha⟩
        · exact .inl hx
        · exact .inr ⟨.inr ⟨hx, hne⟩, hfresh⟩

theorem mem_overlay {upper lower : Table α} {x : α} :
    x ∈ (upper.overlay lower).rows ↔
      x ∈ upper.rows ∨ x ∈ lower.rows ∧ ∀ a ∈ upper.rows, key x ≠ key a :=
  mem_foldl_insert (upper.ascending.imp Nat.ne_of_lt)

theorem overlay_assoc (s t u : Table α) :
    (s.overlay t).overlay u = s.overlay (t.overlay u) := by
  refine eq_of_mem_iff ?_
  intro x
  simp only [mem_overlay]
  constructor
  · rintro ((hx | ⟨hx, hs⟩) | ⟨hx, hfresh⟩)
    · exact .inl hx
    · exact .inr ⟨.inl hx, hs⟩
    · by_cases hs : ∀ a ∈ s.rows, key x ≠ key a
      · refine .inr ⟨.inr ⟨hx, ?_⟩, hs⟩
        intro a ha heq
        exact hfresh a (.inr ⟨ha, fun b hb => heq ▸ hs b hb⟩) heq
      · push Not at hs
        obtain ⟨a, ha, heq⟩ := hs
        exact absurd heq (hfresh a (.inl ha))
  · rintro (hx | ⟨hx | ⟨hx, ht⟩, hs⟩)
    · exact .inl (.inl hx)
    · exact .inl (.inr ⟨hx, hs⟩)
    · refine .inr ⟨hx, ?_⟩
      rintro a (ha | ⟨ha, -⟩)
      · exact hs a ha
      · exact ht a ha

theorem filter_overlay {p : α → Bool} (hp : ∀ a b, key a = key b → p a = p b)
    (s t : Table α) : (s.overlay t).filter p = (s.filter p).overlay (t.filter p) := by
  refine eq_of_mem_iff ?_
  intro x
  simp only [mem_overlay, mem_filter]
  constructor
  · rintro ⟨hx | ⟨hx, hs⟩, hpx⟩
    · exact .inl ⟨hx, hpx⟩
    · exact .inr ⟨⟨hx, hpx⟩, fun a ha => hs a ha.1⟩
  · rintro (⟨hx, hpx⟩ | ⟨⟨hx, hpx⟩, hs⟩)
    · exact ⟨.inl hx, hpx⟩
    · refine ⟨.inr ⟨hx, ?_⟩, hpx⟩
      intro a ha heq
      exact hs a ⟨ha, hp x a heq ▸ hpx⟩ heq

theorem mem_foldl_insert_fresh {p : α → Bool} {x : α} {l : List α} {t : Table α}
    (h : l.Pairwise fun a b => key a < key b) :
    x ∈ (l.foldl (fun t a => if p a then t else if t.contains (key a) then t else t.insert a)
        t).rows ↔
      x ∈ t.rows ∨ (x ∈ l ∧ p x = false) ∧ ∀ a ∈ t.rows, key x ≠ key a := by
  induction l generalizing t with
  | nil => simp
  | cons a l ih =>
      obtain ⟨ha, hl⟩ := List.pairwise_cons.mp h
      rw [List.foldl_cons, List.mem_cons]
      split
      next hpa =>
        have hxa : p x = false → x ≠ a := by
          rintro hpx rfl
          simp [hpx] at hpa
        rw [ih hl]
        tauto
      next hpa =>
        split
        next htaken =>
          obtain ⟨b, hb, hkey⟩ := contains_iff.mp htaken
          have hxa : (∀ b ∈ t.rows, key x ≠ key b) → x ≠ a := by
            rintro hfresh rfl
            exact hfresh b hb hkey.symm
          rw [ih hl]
          tauto
        next htaken =>
          have hfree : ∀ b ∈ t.rows, key b ≠ key a := by
            intro b hb heq
            exact htaken (contains_iff.mpr ⟨b, hb, heq⟩)
          rw [ih hl]
          simp only [mem_insert_of_fresh hfree]
          constructor
          · rintro ((rfl | hx) | ⟨⟨hx, hpx⟩, hfresh⟩)
            · exact .inr ⟨⟨.inl rfl, by simpa using hpa⟩, fun b hb => (hfree b hb).symm⟩
            · exact .inl hx
            · exact .inr ⟨⟨.inr hx, hpx⟩, fun b hb => hfresh b (.inr hb)⟩
          · rintro (hx | ⟨⟨rfl | hx, hpx⟩, hfresh⟩)
            · exact .inl (.inr hx)
            · exact .inl (.inl rfl)
            · refine .inr ⟨⟨hx, hpx⟩, ?_⟩
              rintro b (rfl | hb)
              -- the keys ascend, so none of the rows to come has this one
              · exact (Nat.ne_of_lt (ha x hx)).symm
              · exact hfresh b hb

/-- Inserting only rows that pass a test and whose keys are not taken lays the
table over the rows that pass. -/
theorem foldl_insert_fresh {p : α → Bool} (s t : Table α) :
    s.rows.foldl (fun t a => if p a then t else if t.contains (key a) then t else t.insert a) t =
      t.overlay (s.filter fun a => !p a) := by
  refine eq_of_mem_iff ?_
  intro x
  rw [mem_foldl_insert_fresh s.ascending, mem_overlay, mem_filter, Bool.not_eq_true']

theorem overlay_empty (s : Table α) : s.overlay empty = s :=
  eq_of_mem_iff fun x => by simp [mem_overlay, empty]

theorem empty_overlay (s : Table α) : (empty : Table α).overlay s = s := rfl

theorem filter_true (t : Table α) : t.filter (fun _ => true) = t :=
  ext (List.filter_eq_self.mpr fun _ _ => rfl)

theorem filter_filter {p q : α → Bool} (t : Table α) :
    (t.filter q).filter p = t.filter fun a => p a && q a :=
  ext (List.filter_filter)

/-! ## Whole lists of rows -/

theorem rows_insert_of_lt {t : Table α} {a : α} (h : ∀ b ∈ t.rows, key b < key a) :
    (t.insert a).rows = t.rows ++ [a] := by
  have hascending : (t.rows ++ [a]).Pairwise fun a b => key a < key b :=
    List.pairwise_append.mpr ⟨t.ascending, List.pairwise_singleton _ a,
      fun b hb c hc => List.mem_singleton.mp hc ▸ h b hb⟩
  have hinsert : t.insert a = ⟨t.rows ++ [a], hascending⟩ := by
    refine eq_of_mem_iff ?_
    intro x
    rw [mem_insert_of_fresh fun b hb => Nat.ne_of_lt (h b hb)]
    simp [or_comm]
  rw [hinsert]

/-- Inserting ascending rows one by one, all of them past the rows that are
there, puts them behind these. -/
theorem rows_foldl_insert (l : List α) (t : Table α)
    (h : (t.rows ++ l).Pairwise fun a b => key a < key b) :
    (l.foldl insert t).rows = t.rows ++ l := by
  induction l generalizing t with
  | nil => simp
  | cons a l ih =>
      have hrows : (t.insert a).rows = t.rows ++ [a] := by
        refine rows_insert_of_lt ?_
        intro b hb
        exact (List.pairwise_append.mp h).2.2 b hb a List.mem_cons_self
      have hrest := ih (t.insert a) (by simpa [hrows] using h)
      simpa [hrows] using hrest

theorem foldl_insert_rows (t : Table α) : t.rows.foldl insert empty = t :=
  ext (rows_foldl_insert t.rows empty t.ascending)

end Table

end WorkingTime
