/-
Trimming takes all blanks at both ends and nothing else.

A text is unchanged by trimming exactly when no blank stands at either end
(`trim_eq_self_iff`), a trimmed text is such a text (`trim_trim`), and blanks
around a text make no difference (`trim_blanks`).
-/
import WorkingTime.Text.Blank
import Mathlib.Data.List.TakeWhile

namespace WorkingTime.Text

theorem trimRight_prefix (s : List Char) : trimRight s <+: s := by
  have h : s.reverse.dropWhile isBlank <:+ s.reverse := List.dropWhile_suffix isBlank
  simpa [trimRight] using List.reverse_prefix.mpr h

theorem getLast?_trimRight (s : List Char) : ∀ c ∈ (trimRight s).getLast?, isBlank c = false := by
  intro c hc
  rw [trimRight, List.getLast?_reverse] at hc
  have h := List.head?_dropWhile_not isBlank s.reverse
  rw [hc] at h
  exact h

theorem head?_trim (s : List Char) : ∀ c ∈ (trim s).head?, isBlank c = false := by
  intro c hc
  obtain ⟨rest, hrest⟩ := trimRight_prefix (s.dropWhile isBlank)
  have hhead : (s.dropWhile isBlank).head? = some c := by
    rw [← hrest, List.head?_append, ← trim, hc]
    rfl
  have h := List.head?_dropWhile_not isBlank s
  rw [hhead] at h
  exact h

theorem trimRight_eq_self {s : List Char} (h : ∀ c ∈ s.getLast?, isBlank c = false) :
    trimRight s = s := by
  have hdrop : s.reverse.dropWhile isBlank = s.reverse := by
    cases hs : s.reverse with
    | nil => rfl
    | cons c rest =>
        have hc : isBlank c = false := h c (by
          rw [← List.head?_reverse, hs]
          rfl)
        exact List.dropWhile_cons_of_neg (by simp [hc])
  rw [trimRight, hdrop, List.reverse_reverse]

theorem trim_eq_self_iff {s : List Char} :
    trim s = s ↔
      (∀ c ∈ s.head?, isBlank c = false) ∧ ∀ c ∈ s.getLast?, isBlank c = false := by
  constructor
  · intro h
    refine ⟨h ▸ head?_trim s, ?_⟩
    rw [← h, trim]
    exact getLast?_trimRight _
  · rintro ⟨hhead, hlast⟩
    have hdrop : s.dropWhile isBlank = s := by
      cases s with
      | nil => rfl
      | cons c rest => exact List.dropWhile_cons_of_neg (by simp [hhead c rfl])
    rw [trim, hdrop, trimRight_eq_self hlast]

theorem trim_trim (s : List Char) : trim (trim s) = trim s :=
  trim_eq_self_iff.mpr ⟨head?_trim s, getLast?_trimRight _⟩

theorem trimmed_trimmed (s : String) : trimmed (trimmed s) = trimmed s := by
  simp [trimmed, trim_trim]

theorem trim_blanks {u w : List Char} (hu : ∀ c ∈ u, isBlank c = true)
    (hw : ∀ c ∈ w, isBlank c = true) (s : List Char) : trim (u ++ s ++ w) = trim s := by
  have hleft : (u ++ (s ++ w)).dropWhile isBlank = (s ++ w).dropWhile isBlank :=
    List.dropWhile_append_of_pos hu
  have hright : ∀ t : List Char, trimRight (t ++ w) = trimRight t := by
    intro t
    rw [trimRight, trimRight, List.reverse_append,
      List.dropWhile_append_of_pos fun c hc => hw c (List.mem_reverse.mp hc)]
  rw [trim, trim, List.append_assoc, hleft, List.dropWhile_append]
  split
  next hblank =>
    -- there are only blanks, so nothing is left on either side
    rw [List.isEmpty_iff.mp hblank, List.dropWhile_eq_nil_iff.mpr hw]
  · exact hright _

end WorkingTime.Text
