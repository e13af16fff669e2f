/-
What it means that versions divide time, and that the check of a chain decides
it.

`DivideFrom start bs vs` says it of a suffix of a chain, which is what both the
check and the choice of a version walk along; a whole chain starts with
`none`.  Main statements:

  * `checkChain_eq_ok_iff`: the check passes exactly on chains that divide time;
  * `DivideTime.find?_outlasts_iff`: in such a chain the first version that
    outlasts a date is the only one that contains it, although the search never
    looks at a start.
-/
import WorkingTime.Version.Chain
import Mathlib.Data.List.Basic

namespace WorkingTime

/-! ## The order of dates -/

theorem Date.not_le {a b : Date} : ¬ a ≤ b ↔ b < a := Nat.not_le

theorem Date.not_lt {a b : Date} : ¬ a < b ↔ b ≤ a := Nat.not_lt

namespace Version

/-- The versions divide the time from `start` on, at these boundaries: they
start with `start` and the boundaries, they end with the boundaries and never,
and the boundaries are ascending. -/
structure DivideFrom (start : Option Date) (boundaries : List Date) (versions : List Version) :
    Prop where
  starts : versions.map (·.validFrom) = start :: boundaries.map some
  ends : versions.map (·.expires) = boundaries.map some ++ [none]
  ascending : (start.toList ++ boundaries).Pairwise (· < ·)

/-- The versions divide all of time: there is at least one, the first has no
start, the last has no end, and each boundary is shared by its two neighbours
and later than the boundaries before. -/
def DivideTime (versions : List Version) : Prop :=
  ∃ boundaries, DivideFrom none boundaries versions

/-! ## From one version to the next -/

theorem divideFrom_singleton {start : Option Date} {bs : List Date} {v : Version} :
    DivideFrom start bs [v] ↔ bs = [] ∧ v.validFrom = start ∧ v.expires = none := by
  constructor
  · rintro ⟨hstarts, hends, -⟩
    cases bs with
    | nil => exact ⟨rfl, by simpa using hstarts, by simpa using hends⟩
    | cons b bs => simp at hstarts
  · rintro ⟨rfl, hstart, hend⟩
    exact ⟨by simp [hstart], by simp [hend], by cases start <;> simp⟩

theorem divideFrom_cons_cons {start : Option Date} {bs : List Date} {v w : Version}
    {rest : List Version} :
    DivideFrom start bs (v :: w :: rest) ↔
      ∃ b bs', bs = b :: bs' ∧ v.validFrom = start ∧ v.expires = some b ∧
        (∀ a ∈ start, a < b) ∧ DivideFrom (some b) bs' (w :: rest) := by
  constructor
  · rintro ⟨hstarts, hends, hasc⟩
    cases bs with
    | nil => simp at hstarts
    | cons b bs' =>
        simp only [List.map_cons, List.cons.injEq, List.cons_append] at hstarts hends
        have hasc' : (b :: bs').Pairwise (· < ·) := hasc.sublist (List.sublist_append_right ..)
        refine ⟨b, bs', rfl, hstarts.1, hends.1, ?_, ?_⟩
        · intro a ha
          obtain rfl : start = some a := ha
          exact (List.pairwise_cons.mp hasc).1 b List.mem_cons_self
        · exact ⟨by simpa using hstarts.2, by simpa using hends.2, hasc'⟩
  · rintro ⟨b, bs', rfl, hstart, hend, hlt, hstarts, hends, hasc⟩
    refine ⟨by simpa [hstart] using hstarts, by simpa [hend] using hends, ?_⟩
    cases start with
    | none => exact hasc
    | some a =>
        have hab : a < b := hlt a rfl
        refine List.pairwise_cons.mpr ⟨?_, hasc⟩
        intro c hc
        rcases List.mem_cons.mp hc with rfl | hc
        · exact hab
        · exact Nat.lt_trans hab ((List.pairwise_cons.mp hasc).1 c hc)

theorem checkBoundaries_cons_cons {previous : Option Date} {v w : Version}
    {rest : List Version} :
    checkBoundaries previous (v :: w :: rest) = .ok () ↔
      ∃ b, v.expires = some b ∧ w.validFrom = some b ∧ (∀ a ∈ previous, a < b) ∧
        checkBoundaries (some b) (w :: rest) = .ok () := by
  rw [checkBoundaries]
  cases hend : v.expires with
  | none => simp
  | some b =>
      have horder : previous.any (b ≤ ·) = true ↔ ¬ ∀ a ∈ previous, a < b := by
        cases previous <;> simp [Date.not_lt]
      simp only [Option.some.injEq, exists_eq_left']
      split
      next hshared => simp [hshared]
      next hshared =>
        split
        next hbad =>
          simp only [reduceCtorEq, false_iff]
          rintro ⟨-, hlt, -⟩
          exact horder.mp hbad hlt
        next hgood =>
          have hlt : ∀ a ∈ previous, a < b := Decidable.not_not.mp (mt horder.mpr hgood)
          constructor
          · intro hok
            exact ⟨Decidable.not_not.mp hshared, hlt, hok⟩
          · rintro ⟨-, -, hok⟩
            exact hok

/-- The check of boundaries, together with an open end, is the division of the
time after the start of the first version. -/
theorem checkBoundaries_eq_ok_iff {v w : Version} {rest : List Version} {start : Option Date}
    (hw : (v :: rest).getLast? = some w) :
    checkBoundaries start (v :: rest) = .ok () ∧ w.expires = none ∧ v.validFrom = start ↔
      ∃ bs, DivideFrom start bs (v :: rest) := by
  induction rest generalizing v start with
  | nil =>
      obtain rfl : v = w := by simpa using hw
      simp [checkBoundaries, divideFrom_singleton, and_comm]
  | cons u rest ih =>
      have hw' : (u :: rest).getLast? = some w := by simpa using hw
      simp only [checkBoundaries_cons_cons, divideFrom_cons_cons]
      constructor
      · rintro ⟨⟨b, hend, hstart, hlt, hok⟩, hlast, hv⟩
        obtain ⟨bs, hbs⟩ := (ih hw').mp ⟨hok, hlast, hstart⟩
        exact ⟨b :: bs, b, bs, rfl, hv, hend, hlt, hbs⟩
      · rintro ⟨-, b, bs, rfl, hv, hend, hlt, hbs⟩
        obtain ⟨hok, hlast, hstart⟩ := (ih hw').mpr ⟨bs, hbs⟩
        exact ⟨⟨b, hend, hstart, hlt, hok⟩, hlast, hv⟩

/-! ## The check of a chain -/

theorem not_divideTime_nil : ¬ DivideTime [] := by
  rintro ⟨bs, hstarts, -, -⟩
  simp at hstarts

theorem checkChain_eq_ok_iff {versions : List Version} :
    checkChain versions = .ok () ↔ DivideTime versions := by
  cases versions with
  | nil => simpa [checkChain] using not_divideTime_nil
  | cons v rest =>
      obtain ⟨w, hw⟩ : ∃ w, (v :: rest).getLast? = some w :=
        ⟨_, List.getLast?_eq_some_getLast (List.cons_ne_nil v rest)⟩
      rw [DivideTime, ← checkBoundaries_eq_ok_iff hw, checkChain]
      simp only [List.head?_cons, hw]
      cases hv : v.validFrom <;> cases he : w.expires <;> simp

/-! ## The version of a date -/

theorem contains_iff {v : Version} {d : Date} :
    v.contains d = true ↔ (∀ a ∈ v.validFrom, a ≤ d) ∧ v.outlasts d = true := by
  cases hv : v.validFrom <;> simp [contains, hv]

theorem outlasts_iff {v : Version} {d : Date} :
    v.outlasts d = true ↔ ∀ b ∈ v.expires, d < b := by
  cases hv : v.expires <;> simp [outlasts, hv]

namespace DivideFrom

variable {v : Version} {vs : List Version} {bs : List Date} {d : Date}

theorem exists_validFrom {b : Date} (h : DivideFrom (some b) bs vs) (hv : v ∈ vs) :
    ∃ a, v.validFrom = some a ∧ b ≤ a := by
  have hstart : v.validFrom ∈ some b :: bs.map some := h.starts ▸ List.mem_map_of_mem hv
  rcases List.mem_cons.mp hstart with ha | ha
  · exact ⟨b, ha, Nat.le_refl _⟩
  · obtain ⟨a, ha, hva⟩ := List.mem_map.mp ha
    have hba : b < a := (List.pairwise_cons.mp h.ascending).1 a ha
    exact ⟨a, hva.symm, Nat.le_of_lt hba⟩

theorem not_contains_of_lt {b : Date} (h : DivideFrom (some b) bs vs) (hv : v ∈ vs)
    (hd : d < b) : v.contains d ≠ true := by
  intro hc
  obtain ⟨a, ha, hba⟩ := h.exists_validFrom hv
  have had : a ≤ d := (contains_iff.mp hc).1 a ha
  exact Date.not_le.mpr hd (Nat.le_trans hba had)

/-- A version that contains a date on or after the start of a suffix is the
first one of the suffix that outlasts the date, and the other way round. -/
theorem find?_outlasts_iff {start : Option Date} (h : DivideFrom start bs vs)
    (hd : ∀ a ∈ start, a ≤ d) :
    vs.find? (·.outlasts d) = some v ↔ v ∈ vs ∧ v.contains d = true := by
  induction vs generalizing start bs with
  | nil => exact absurd h.starts (by simp)
  | cons u rest ih =>
      cases rest with
      | nil =>
          obtain ⟨-, rfl, hend⟩ := divideFrom_singleton.mp h
          have hout : u.outlasts d = true := by simp [outlasts_iff, hend]
          have hin : u.contains d = true := contains_iff.mpr ⟨hd, hout⟩
          simp only [List.find?_cons, hout, Option.some.injEq, List.mem_singleton]
          constructor
          · rintro rfl
            exact ⟨rfl, hin⟩
          · rintro ⟨rfl, -⟩
            rfl
      | cons w rest =>
          obtain ⟨b, bs', rfl, rfl, hend, -, hrest⟩ := divideFrom_cons_cons.mp h
          have hout : u.outlasts d = true ↔ d < b := by simp [outlasts_iff, hend]
          -- before the boundary it is the first version, and from there on one of the others
          by_cases hdb : d < b
          · simp only [List.find?_cons, hout.mpr hdb, Option.some.injEq]
            constructor
            · rintro rfl
              exact ⟨List.mem_cons_self, contains_iff.mpr ⟨hd, hout.mpr hdb⟩⟩
            · rintro ⟨hv, hc⟩
              rcases List.mem_cons.mp hv with rfl | hv
              · rfl
              · exact absurd hc (hrest.not_contains_of_lt hv hdb)
          · have hbd : ∀ a ∈ some b, a ≤ d := by simpa using Date.not_lt.mp hdb
            have hu : u.outlasts d = false := Bool.eq_false_iff.mpr (mt hout.mp hdb)
            rw [List.find?_cons_of_neg (by simp [hu]), ih hrest hbd]
            constructor
            · rintro ⟨hv, hc⟩
              exact ⟨List.mem_cons_of_mem _ hv, hc⟩
            · rintro ⟨hv, hc⟩
              rcases List.mem_cons.mp hv with rfl | hv
              · exact absurd (hout.mp (contains_iff.mp hc).2) hdb
              · exact ⟨hv, hc⟩

end DivideFrom

/-- In a chain that divides time, the version that contains a date is the first
one that outlasts it. -/
theorem DivideTime.find?_outlasts_iff {vs : List Version} (h : DivideTime vs) {v : Version}
    {d : Date} : vs.find? (·.outlasts d) = some v ↔ v ∈ vs ∧ v.contains d = true := by
  obtain ⟨bs, hbs⟩ := h
  exact hbs.find?_outlasts_iff (by simp)

end Version

end WorkingTime
