/-
What a list of versions must be to pass the check, and what it is worth then.

The check goes from left to right and compares neighbours; `CutAt` says of the whole list,
place by place, that its versions cut time at ascending dates, and the two come to the
same (`cutAt_iff`).  The version of a date is found by a scan for the first end after the
date, which sees no start and falls back on the last version when it finds nothing
(`versionIndexAt_eq_scan`).  On a list that passed the check it always finds something,
and that is the one version that contains the date (`selects_versionAt`).
-/
import WorkingTime.Proofs.Calendar.Boundary

namespace WorkingTime

/-! ## Cutting time -/

namespace Version

variable {vs : List Version} {bs : List Date}

/-- The versions cut time at these dates: each ends on the date on which the next one
starts, the dates ascend, the first version has no start and the last one no end. -/
structure CutAt (bs : List Date) (vs : List Version) : Prop where
  nonempty : vs ≠ []
  length_eq : vs.length = bs.length + 1
  first_open : ∀ v ∈ vs.head?, v.validFrom = none
  last_open : ∀ v ∈ vs.getLast?, v.expires = none
  shared : ∀ (i : Nat) (b : Date), bs[i]? = some b →
    (∃ v, vs[i]? = some v ∧ v.expires = some b) ∧ ∃ w, vs[i + 1]? = some w ∧ w.validFrom = some b
  ascending : bs.Pairwise (· < ·)

theorem CutAt.starts (h : CutAt bs vs) : vs.map (·.validFrom) = none :: bs.map some := by
  refine List.ext_getElem? ?_
  intro i
  rw [List.getElem?_map]
  cases i with
  | zero =>
      obtain ⟨v, rest, rfl⟩ := List.exists_cons_of_ne_nil h.nonempty
      exact congrArg some (h.first_open v rfl)
  | succ i =>
      rw [List.getElem?_cons_succ, List.getElem?_map]
      cases hb : bs[i]? with
      | none =>
          have hlen : vs.length ≤ i + 1 := by
            have := List.getElem?_eq_none_iff.mp hb
            rw [h.length_eq]
            omega
          rw [List.getElem?_eq_none hlen]
          rfl
      | some b =>
          obtain ⟨-, w, hw, hstart⟩ := h.shared i b hb
          rw [hw]
          exact congrArg some hstart

theorem CutAt.ends (h : CutAt bs vs) : vs.map (·.expires) = bs.map some ++ [none] := by
  obtain ⟨init, last, rfl⟩ := (List.eq_nil_or_concat' vs).resolve_left h.nonempty
  have hlast : last.expires = none := h.last_open last (by simp)
  have hlen : init.length = bs.length := by simpa using h.length_eq
  rw [List.map_append, List.map_singleton, hlast]
  congr 1
  refine List.ext_getElem? ?_
  intro i
  rw [List.getElem?_map, List.getElem?_map]
  cases hb : bs[i]? with
  | none =>
      have hi : init.length ≤ i := hlen ▸ List.getElem?_eq_none_iff.mp hb
      rw [List.getElem?_eq_none hi]
      rfl
  | some b =>
      obtain ⟨⟨v, hv, hend⟩, -⟩ := h.shared i b hb
      have hi : i < init.length := hlen ▸ (List.getElem?_eq_some_iff.mp hb).1
      rw [List.getElem?_append_left hi] at hv
      rw [hv]
      exact congrArg some hend

/-- Cutting time, place by place, is dividing it. -/
theorem cutAt_iff : CutAt bs vs ↔ DivideFrom none bs vs := by
  constructor
  · intro h
    exact ⟨h.starts, h.ends, h.ascending⟩
  · intro h
    have hlen := h.length_eq
    have hne : vs ≠ [] := List.ne_nil_of_length_eq_add_one hlen
    refine ⟨hne, hlen, ?_, ?_, ?_, h.ascending⟩
    · intro v hv
      rw [Option.mem_def, List.head?_eq_getElem?] at hv
      simpa [eq_comm] using h.validFrom_eq hv
    · intro v hv
      rw [Option.mem_def, List.getLast?_eq_getElem?, hlen, Nat.add_sub_cancel] at hv
      simpa using h.expires_eq hv
    · intro i b hb
      have hi : i < bs.length := (List.getElem?_eq_some_iff.mp hb).1
      have hv : vs[i]? = some vs[i] := List.getElem?_eq_getElem (by omega)
      have hw : vs[i + 1]? = some vs[i + 1] := List.getElem?_eq_getElem (by omega)
      exact ⟨⟨_, hv, (h.expires_eq hv).trans hb⟩, _, hw, (h.validFrom_eq_boundary hw).trans hb⟩

theorem validateChain_eq_ok_iff : validateChain vs = .ok () ↔ DivideTime vs := by
  rw [validateChain, Answer.mapError_eq_ok_iff, checkChain_eq_ok_iff]

end Version

/-! ## The scan -/

namespace Calendar

variable {c : Calendar} {d : Date}

/-- The place of the version in effect is found by looking through all versions for one
that outlasts the date; the last one is taken when there is none. -/
theorem versionIndexAt_eq_scan (c : Calendar) (d : Date) :
    c.versionIndexAt d = (c.versions.findIdx? (·.outlasts d)).getD (c.versions.length - 1) := by
  have hlast : c.versions.length - 1 = c.superseded.length := by simp [versions]
  rw [versionIndexAt, List.findIdx_eq_getD_findIdx?, hlast, versions, List.findIdx?_append]
  cases c.superseded.findIdx? (·.outlasts d) with
  | some i => rfl
  | none =>
      rw [List.findIdx?_singleton]
      split <;> simp

/-- On this date the scan stops by itself, at this place; the version there has started,
has not ended, and is the only one of which both is true. -/
structure Selects (c : Calendar) (d : Date) (i : Nat) (v : Version) : Prop extends
    InEffect c d i v where
  only : ∀ j w, c.versions[j]? = some w → w.contains d = true → j = i
  scan : c.versions.findIdx? (·.outlasts d) = some i
  versionIndexAt : c.versionIndexAt d = i
  versionAt : c.versionAt d = v

theorem selects_versionAt (h : Version.DivideTime c.versions) (d : Date) :
    c.Selects d (c.versionIndexAt d) (c.versionAt d) := by
  have hin := inEffect_versionAt h d
  have hfound : (c.versions.findIdx? (·.outlasts d)).isSome = true := by
    rw [List.findIdx?_isSome, List.any_eq_true]
    exact ⟨c.current, c.current_mem_versions,
      by simp [Version.outlasts_iff, current_expires h]⟩
  obtain ⟨i, hi⟩ := Option.isSome_iff_exists.mp hfound
  have hscan := c.versionIndexAt_eq_scan d
  rw [hi, Option.getD_some] at hscan
  refine ⟨hin, ?_, hi.trans (congrArg some hscan.symm), rfl, rfl⟩
  intro j w hw hwd
  exact (InEffect.index_eq h ⟨hw, hwd⟩).symm

end Calendar

namespace Version

/-- The check accepts exactly the lists of versions that cut time at ascending dates.  The
scan for the version of a date goes by ends alone and may fall back on the last version;
with an accepted list, which makes a calendar, it does not: on every date it stops at the
one version that contains the date. -/
theorem chain_partitions_time (vs : List Version) :
    (validateChain vs = .ok () ↔ ∃ bs, CutAt bs vs) ∧
    (∀ c : Calendar, c.versions = vs → ∀ d,
      c.versionIndexAt d = (vs.findIdx? (·.outlasts d)).getD (vs.length - 1) ∧
        vs[c.versionIndexAt d]? = some (c.versionAt d)) ∧
    (validateChain vs = .ok () →
      (∀ id name, ∃ c, Calendar.ofVersions id name vs = .ok c ∧ c.versions = vs) ∧
      ∀ c : Calendar, c.versions = vs → ∀ d, ∃ i v, c.Selects d i v) := by
  refine ⟨?_, ?_, ?_⟩
  · simp only [validateChain_eq_ok_iff, DivideTime, cutAt_iff]
  · rintro c rfl d
    exact ⟨c.versionIndexAt_eq_scan d, c.getElem?_versionIndexAt d⟩
  · intro hvalid
    have htime := validateChain_eq_ok_iff.mp hvalid
    constructor
    · intro id name
      have hne : vs ≠ [] := by
        rintro rfl
        exact not_divideTime_nil htime
      have hversions : vs.dropLast ++ [vs.getLast hne] = vs := List.dropLast_concat_getLast hne
      exact ⟨⟨id, name, _, _⟩,
        Calendar.ofVersions_eq_ok_iff.mpr ⟨htime, rfl, rfl, hversions⟩, hversions⟩
    · rintro c rfl d
      exact ⟨_, _, Calendar.selects_versionAt htime d⟩

/-- Three versions, of which the second starts on day 10 and the third on day 20. -/
def seasons : List Version :=
  [{ expires := some ⟨10, by decide⟩ },
   { validFrom := some ⟨10, by decide⟩, expires := some ⟨20, by decide⟩ },
   { validFrom := some ⟨20, by decide⟩ }]

/-- A boundary belongs to the later version, and the day before it to the earlier one. -/
theorem chain_partitions_time_seasons :
    validateChain seasons = .ok () ∧ (∃ bs, CutAt bs seasons) ∧
      ∃ c : Calendar, c.versions = seasons ∧
        (∃ v, c.Selects ⟨10, by decide⟩ 1 v) ∧ ∃ v, c.Selects ⟨9, by decide⟩ 0 v := by
  obtain ⟨haccepted, -, hselected⟩ := chain_partitions_time seasons
  have hvalid : validateChain seasons = .ok () := by decide
  obtain ⟨hmade, hselects⟩ := hselected hvalid
  obtain ⟨c, -, hversions⟩ := hmade ⟨1, by decide⟩ "Seasons"
  have hplace : ∀ d i, seasons.findIdx? (·.outlasts d) = some i → ∃ v, c.Selects d i v := by
    intro d i hscan
    obtain ⟨j, v, hv⟩ := hselects c hversions d
    obtain rfl := Option.some.inj ((hversions ▸ hv.scan).symm.trans hscan)
    exact ⟨v, hv⟩
  exact ⟨hvalid, haccepted.mp hvalid, c, hversions, hplace _ _ (by decide),
    hplace _ _ (by decide)⟩

end Version

end WorkingTime
