/-
The boundary between two versions of a calendar, and how it moves.

One version is in effect on a date, and its place is the one that is looked up
(`InEffect.index_eq`).  The boundary that a version shares with the next can be
addressed by a date on either side; both ways are one move (`Neighbours.setExpires_eq`,
`Neighbours.setValidFrom_eq`), which comes out well strictly between the other bounds
of the two versions.  A version keeps its rules in the move, and the dates that are not
passed over keep their version (`Neighbours.toRules_versionAt`); moved back, the
boundary leaves nothing behind (`Neighbours.withBoundary_back`).
-/
import WorkingTime.Proofs.Calendar.Edit

namespace WorkingTime

/-! ## The bounds of the version at a place -/

namespace Version

variable {vs : List Version} {v w : Version} {bs : List Date} {start : Option Date} {i j : Nat}
  {d : Date}

namespace DivideFrom

theorem length_eq (h : DivideFrom start bs vs) : vs.length = bs.length + 1 := by
  simpa using congrArg List.length h.ends

theorem lt_length_of_next (h : DivideFrom start bs vs) (hv : vs[i + 1]? = some v) :
    i < bs.length := by
  have hlen : i + 1 < vs.length := (List.getElem?_eq_some_iff.mp hv).1
  rw [h.length_eq] at hlen
  exact Nat.lt_of_succ_lt_succ hlen

theorem expires_eq (h : DivideFrom start bs vs) (hv : vs[i]? = some v) :
    v.expires = bs[i]? := by
  have hlen : i < vs.length := (List.getElem?_eq_some_iff.mp hv).1
  have hend : (bs.map some ++ [none])[i]? = some v.expires := by
    rw [← h.ends, List.getElem?_map, hv, Option.map_some]
  rw [h.length_eq] at hlen
  rcases Nat.lt_or_eq_of_le (Nat.le_of_lt_succ hlen) with hi | rfl
  · rw [List.getElem?_append_left (by simpa using hi)] at hend
    simpa [hi, eq_comm] using hend
  · simpa [eq_comm] using hend

theorem validFrom_eq (h : DivideFrom start bs vs) (hv : vs[i]? = some v) :
    (start :: bs.map some)[i]? = some v.validFrom := by
  rw [← h.starts, List.getElem?_map, hv, Option.map_some]

theorem validFrom_eq_boundary (h : DivideFrom start bs vs) (hv : vs[i + 1]? = some v) :
    v.validFrom = bs[i]? := by
  have hstart := h.validFrom_eq hv
  rw [List.getElem?_cons_succ] at hstart
  simpa [h.lt_length_of_next hv, eq_comm] using hstart

theorem boundary_lt (h : DivideFrom start bs vs) (hi : i < bs.length) (hj : j < bs.length)
    (hij : i < j) : bs[i] < bs[j] := by
  have hasc := h.ascending.sublist (List.sublist_append_right start.toList bs)
  exact List.pairwise_iff_getElem.mp hasc i j hi hj hij

end DivideFrom

theorem DivideTime.not_contains_of_lt (h : DivideTime vs) (hv : vs[i]? = some v)
    (hw : vs[j]? = some w) (hij : i < j) (hvd : v.contains d = true) : w.contains d ≠ true := by
  intro hwd
  obtain ⟨bs, hbs⟩ := h
  obtain ⟨n, rfl⟩ : ∃ n, j = n + 1 := ⟨j - 1, by omega⟩
  have hn : n < bs.length := hbs.lt_length_of_next hw
  have hi : i < bs.length := by omega
  have hend : d < bs[i] := by
    refine outlasts_iff.mp (contains_iff.mp hvd).2 _ ?_
    rw [hbs.expires_eq hv, List.getElem?_eq_getElem hi]
    rfl
  have hstart : bs[n] ≤ d := by
    refine (contains_iff.mp hwd).1 _ ?_
    rw [hbs.validFrom_eq_boundary hw, List.getElem?_eq_getElem hn]
    rfl
  rcases Nat.lt_or_eq_of_le (Nat.le_of_lt_succ hij) with hin | rfl
  · have hbn : bs[i] < bs[n] := hbs.boundary_lt hi hn hin
    exact Nat.lt_asymm hend (Nat.lt_of_lt_of_le hbn hstart)
  · exact Date.not_lt.mpr hstart hend

end Version

namespace Calendar

variable {c c' : Calendar} {v w u : Version} {i j : Nat} {b d reference : Date}

/-! ## The version in effect, and its place -/

/-- The version at a place, which is in effect on a date. -/
structure InEffect (c : Calendar) (d : Date) (i : Nat) (v : Version) : Prop where
  at_place : c.versions[i]? = some v
  contains : v.contains d = true

theorem getElem?_versions (hi : i ≤ c.superseded.length) :
    c.versions[i]? = some (c.superseded[i]?.getD c.current) := by
  rw [versions]
  rcases Nat.lt_or_eq_of_le hi with hlt | rfl
  · rw [List.getElem?_append_left hlt, List.getElem?_eq_getElem hlt, Option.getD_some]
  · simp

theorem getElem?_versionIndexAt (c : Calendar) (d : Date) :
    c.versions[c.versionIndexAt d]? = some (c.versionAt d) := by
  rw [versionAt, List.find?_eq_getElem?_findIdx]
  exact getElem?_versions List.findIdx_le_length

theorem inEffect_versionAt (h : Version.DivideTime c.versions) (d : Date) :
    c.InEffect d (c.versionIndexAt d) (c.versionAt d) where
  at_place := c.getElem?_versionIndexAt d
  contains := contains_versionAt h d

namespace InEffect

theorem unique (h : Version.DivideTime c.versions) (hv : c.InEffect d i v)
    (hw : c.InEffect d j w) : i = j := by
  rcases Nat.lt_trichotomy i j with hij | hij | hij
  · exact absurd hw.contains (h.not_contains_of_lt hv.at_place hw.at_place hij hv.contains)
  · exact hij
  · exact absurd hv.contains (h.not_contains_of_lt hw.at_place hv.at_place hij hw.contains)

theorem index_eq (h : Version.DivideTime c.versions) (hv : c.InEffect d i v) :
    c.versionIndexAt d = i :=
  unique h (inEffect_versionAt h d) hv

theorem versionAt_eq (h : Version.DivideTime c.versions) (hv : c.InEffect d i v) :
    c.versionAt d = v :=
  (versionAt_eq_iff h).mpr ⟨List.mem_of_getElem? hv.at_place, hv.contains⟩

end InEffect

theorem setExpires_of_last (h : Version.DivideTime c.versions) (hv : c.InEffect reference i v)
    (hlast : c.versions[i + 1]? = none) :
    c.setExpires d reference = .error (.noNextVersion reference) := by
  have hlen : c.versions.length ≤ i + 1 := List.getElem?_eq_none_iff.mp hlast
  have hnone : c.superseded[i]? = none := by
    rw [List.getElem?_eq_none_iff]
    simpa [versions] using hlen
  rw [setExpires, hv.index_eq h, hnone]

theorem setValidFrom_of_first (h : Version.DivideTime c.versions)
    (hv : c.InEffect reference 0 v) :
    c.setValidFrom d reference = .error (.noPreviousVersion reference) := by
  rw [setValidFrom, hv.index_eq h]

/-! ## Calendars with the same versions -/

theorem eq_of_versions (hid : c'.id = c.id) (hname : c'.name = c.name)
    (hversions : c'.versions = c.versions) : c' = c := by
  obtain ⟨hsuperseded, hcurrent⟩ := List.append_inj' hversions rfl
  cases c
  cases c'
  simp only [List.cons.injEq, and_true] at hid hname hsuperseded hcurrent
  rw [hid, hname, hsuperseded, hcurrent]

theorem withBoundary_withBoundary (hi : i < c.superseded.length) :
    (c.withBoundary i d).withBoundary i b = c.withBoundary i b := by
  have hi' : i < (c.withBoundary i d).superseded.length := by simpa [withBoundary] using hi
  refine eq_of_versions rfl rfl (List.ext_getElem? fun j => ?_)
  rw [getElem?_versions_withBoundary hi', getElem?_versions_withBoundary hi,
    getElem?_versions_withBoundary hi, Option.map_map]
  congr 1
  funext v
  grind [movedAt]

/-! ## Neighbours -/

/-- The versions `v` and `w` are at the places `i` and `i + 1`, and `b` is the boundary
between them. -/
structure Neighbours (c : Calendar) (i : Nat) (v w : Version) (b : Date) : Prop where
  earlier : c.versions[i]? = some v
  later : c.versions[i + 1]? = some w
  expires : v.expires = some b
  starts : w.validFrom = some b
  after_start : ∀ a ∈ v.validFrom, a < b
  before_end : ∀ e ∈ w.expires, b < e

theorem exists_neighbours (h : Version.DivideTime c.versions) (hv : c.versions[i]? = some v)
    (hw : c.versions[i + 1]? = some w) : ∃ b, c.Neighbours i v w b := by
  obtain ⟨bs, hbs⟩ := h
  have hlen : i < bs.length := hbs.lt_length_of_next hw
  refine ⟨bs[i], hv, hw, ?_, ?_, ?_, ?_⟩
  · rw [hbs.expires_eq hv, List.getElem?_eq_getElem hlen]
  · rw [hbs.validFrom_eq_boundary hw, List.getElem?_eq_getElem hlen]
  · intro a ha
    cases i with
    | zero =>
        have hfirst : none = v.validFrom := Option.some.inj (hbs.validFrom_eq hv)
        rw [← hfirst] at ha
        cases ha
    | succ n =>
        rw [hbs.validFrom_eq_boundary hv] at ha
        obtain ⟨hn, rfl⟩ := List.getElem?_eq_some_iff.mp ha
        exact hbs.boundary_lt hn hlen (Nat.lt_succ_self n)
  · intro e he
    rw [hbs.expires_eq hw] at he
    obtain ⟨hn, rfl⟩ := List.getElem?_eq_some_iff.mp he
    exact hbs.boundary_lt hlen hn (Nat.lt_succ_self i)

namespace Neighbours

theorem lt_length (hn : c.Neighbours i v w b) : i < c.superseded.length := by
  have hlen : i + 1 < c.versions.length := (List.getElem?_eq_some_iff.mp hn.later).1
  simpa [versions] using hlen

theorem superseded (hn : c.Neighbours i v w b) : c.superseded[i]? = some v := by
  have hearlier := hn.earlier
  rwa [versions, List.getElem?_append_left hn.lt_length] at hearlier

/-! ### One move, from either side -/

/-- The boundary can be addressed from the version before it. -/
theorem setExpires_eq (hn : c.Neighbours i v w b) (h : Version.DivideTime c.versions)
    (hin : v.contains reference = true) :
    c.setExpires d reference = c.moveBoundary i v d := by
  have heffect : c.InEffect reference i v := ⟨hn.earlier, hin⟩
  rw [setExpires, heffect.index_eq h, hn.superseded]

/-- The boundary can be addressed from the version after it. -/
theorem setValidFrom_eq (hn : c.Neighbours i v w b) (h : Version.DivideTime c.versions)
    (hin : w.contains reference = true) :
    c.setValidFrom d reference = c.moveBoundary i v d := by
  have heffect : c.InEffect reference (i + 1) w := ⟨hn.later, hin⟩
  rw [setValidFrom, heffect.index_eq h, Nat.add_sub_cancel, hn.superseded]

theorem moveBoundary_eq (hn : c.Neighbours i v w b) :
    c.moveBoundary i v d =
      if isBetween v.validFrom d w.expires then .ok (c.withBoundary i d)
      else .error (.boundaryOutOfOrder d v.validFrom w.expires) := by
  have hlater := hn.later
  rw [getElem?_versions hn.lt_length] at hlater
  rw [moveBoundary, Option.some.inj hlater]

theorem moveBoundary_eq_ok_iff (hn : c.Neighbours i v w b) :
    c.moveBoundary i v d = .ok c' ↔
      ((∀ a ∈ v.validFrom, a < d) ∧ ∀ e ∈ w.expires, d < e) ∧ c' = c.withBoundary i d := by
  have hbetween : isBetween v.validFrom d w.expires = true ↔
      (∀ a ∈ v.validFrom, a < d) ∧ ∀ e ∈ w.expires, d < e := by
    simp only [isBetween, Bool.and_eq_true, Option.all_eq_true, decide_eq_true_eq]
    rfl
  rw [hn.moveBoundary_eq, ← hbetween]
  split
  next hin => simp [hin, eq_comm]
  next hout => simp [hout]

/-! ### Back and forth -/

theorem moved (hn : c.Neighbours i v w b) (hlow : ∀ a ∈ v.validFrom, a < d)
    (hhigh : ∀ e ∈ w.expires, d < e) :
    (c.withBoundary i d).Neighbours i { v with expires := some d } { w with validFrom := some d }
      d where
  earlier := by
    rw [getElem?_versions_withBoundary hn.lt_length, hn.earlier, Option.map_some, movedAt,
      if_pos rfl]
  later := by
    rw [getElem?_versions_withBoundary hn.lt_length, hn.later, Option.map_some, movedAt,
      if_neg (Nat.succ_ne_self i), if_pos rfl]
  expires := rfl
  starts := rfl
  after_start := hlow
  before_end := hhigh

theorem withBoundary_self (hn : c.Neighbours i v w b) : c.withBoundary i b = c := by
  refine eq_of_versions rfl rfl (List.ext_getElem? fun j => ?_)
  rw [getElem?_versions_withBoundary hn.lt_length]
  by_cases hj : j = i
  · rw [hj, hn.earlier, Option.map_some, movedAt, if_pos rfl, ← hn.expires]
  · by_cases hj' : j = i + 1
    · rw [hj', hn.later, Option.map_some, movedAt, if_neg (Nat.succ_ne_self i), if_pos rfl,
        ← hn.starts]
    · cases c.versions[j]? with
      | none => rfl
      | some u => rw [Option.map_some, movedAt, if_neg hj, if_neg hj']

theorem withBoundary_back (hn : c.Neighbours i v w b) :
    (c.withBoundary i d).withBoundary i b = c := by
  rw [withBoundary_withBoundary hn.lt_length, hn.withBoundary_self]

/-! ### Dates that are not passed over -/

/-- On a date on the same side of both boundaries, the version in effect keeps its
rules. -/
theorem toRules_versionAt (hn : c.Neighbours i v w b) (h : Version.DivideTime c.versions)
    (h' : Version.DivideTime (c.withBoundary i d).versions) {day : Date}
    (hside : day < b ↔ day < d) :
    ((c.withBoundary i d).versionAt day).toRules = (c.versionAt day).toRules := by
  obtain ⟨hplace, hin⟩ := inEffect_versionAt h day
  set j := c.versionIndexAt day with hj
  set u := c.versionAt day with hu
  obtain ⟨hstart, hout⟩ := Version.contains_iff.mp hin
  have hmoved : (c.withBoundary i d).InEffect day j (movedAt i d j u) := by
    refine ⟨by rw [getElem?_versions_withBoundary hn.lt_length, hplace, Option.map_some], ?_⟩
    rw [movedAt]
    split
    next hji =>
      obtain rfl : v = u := by
        rw [hji, hn.earlier] at hplace
        exact Option.some.inj hplace
      have hdb : day < b := Version.outlasts_iff.mp hout b hn.expires
      exact Version.contains_iff.mpr ⟨hstart, by simpa [Version.outlasts] using hside.mp hdb⟩
    · split
      next hji =>
        obtain rfl : w = u := by
          rw [hji, hn.later] at hplace
          exact Option.some.inj hplace
        have hbd : b ≤ day := hstart b hn.starts
        have hdd : d ≤ day := Date.not_lt.mp (mt hside.mpr (Date.not_lt.mpr hbd))
        exact Version.contains_iff.mpr ⟨by simpa using hdd, hout⟩
      · exact hin
  rw [hmoved.versionAt_eq h', toRules_movedAt]

end Neighbours

end Calendar

end WorkingTime
