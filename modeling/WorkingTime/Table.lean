/-
Rows kept in ascending order of a numeric key, at most one row per key.

The exceptions of a version and the calendars of a registry are such tables.
The key is read off the row itself, so a row cannot stand under a foreign key,
and the rows of a table, which are what a document lists, determine it.
-/
namespace WorkingTime

/-- Rows of this type carry a number that identifies them. -/
class Keyed (α : Type) where
  key : α → Nat

open Keyed (key)

/-- Distinct rows in ascending order of their keys. -/
structure Table (α : Type) [Keyed α] where
  rows : List α
  ascending : rows.Pairwise fun a b => key a < key b
deriving DecidableEq

namespace Table

variable {α : Type} [Keyed α]

@[ext] theorem ext {s t : Table α} (h : s.rows = t.rows) : s = t := by
  cases s; cases t; cases h; rfl

/-! ## Looking up -/

def find? (t : Table α) (k : Nat) : Option α :=
  t.rows.find? fun a => key a == k

def contains (t : Table α) (k : Nat) : Bool :=
  t.rows.any fun a => key a == k

/-! ## Inserting -/

def empty : Table α :=
  ⟨[], .nil⟩

/-- A row put in its place among ascending rows, instead of the one with its
key. -/
def place (a : α) : List α → List α
  | [] => [a]
  | b :: rest =>
      if key a < key b then a :: b :: rest
      else if key a = key b then a :: rest
      else b :: place a rest

theorem mem_of_mem_place {a x : α} : ∀ {l : List α}, x ∈ place a l → x = a ∨ x ∈ l
  | [], h => by simpa [place] using h
  | b :: rest, h => by
      rw [place] at h
      split at h
      · exact List.mem_cons.mp h
      · split at h
        · rcases List.mem_cons.mp h with h | h
          · exact .inl h
          · exact .inr (List.mem_cons_of_mem _ h)
        · rcases List.mem_cons.mp h with h | h
          · exact .inr (h ▸ List.mem_cons_self)
          · exact (mem_of_mem_place h).imp_right (List.mem_cons_of_mem _)

theorem place_ascending (a : α) : ∀ {l : List α},
    l.Pairwise (fun x y => key x < key y) →
      (place a l).Pairwise fun x y => key x < key y
  | [], _ => by simp [place]
  | b :: rest, h => by
      have ⟨hb, hrest⟩ := List.pairwise_cons.mp h
      rw [place]
      split
      next hlt =>
        refine List.pairwise_cons.mpr ⟨fun x hx => ?_, h⟩
        rcases List.mem_cons.mp hx with rfl | hx
        · exact hlt
        · exact Nat.lt_trans hlt (hb x hx)
      next hge =>
        split
        next heq => exact List.pairwise_cons.mpr ⟨fun x hx => heq ▸ hb x hx, hrest⟩
        next hne =>
          refine List.pairwise_cons.mpr ⟨fun x hx => ?_, place_ascending a hrest⟩
          rcases mem_of_mem_place hx with rfl | hx
          · omega
          · exact hb x hx

/-- The table with a row added, or put instead of the one with its key. -/
def insert (t : Table α) (a : α) : Table α :=
  ⟨place a t.rows, place_ascending a t.ascending⟩

/-- The rows of `upper`, and those of `lower` whose keys `upper` lacks. -/
def overlay (upper lower : Table α) : Table α :=
  upper.rows.foldl insert lower

/-! ## Leaving out -/

def filter (p : α → Bool) (t : Table α) : Table α :=
  ⟨t.rows.filter p, t.ascending.filter p⟩

def erase (t : Table α) (k : Nat) : Table α :=
  t.filter fun a => key a != k

end Table

end WorkingTime
