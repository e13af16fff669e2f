/-
What one edit can do to a calendar, and what it leaves as it was.

`Edit` has the edits of a calendar as data.  A successful edit does one of
three things, and `Edit.edited_of_run` says which: it gives the current version
other rules, it opens a new version, or it moves a boundary.  Everything about
edits is then said of these three cases.  Main statements:

  * `Edited.divideTime`: an edited calendar still divides time;
  * `Edited.mem_parents`: an edit keeps the parents of a calendar, all versions
    taken together.
-/
import WorkingTime.Calendar.Edit
import WorkingTime.Proofs.Answer
import WorkingTime.Proofs.Version.Chain

namespace WorkingTime.Calendar

/-! ## Versions of a calendar -/

theorem mem_versions {c : Calendar} {v : Version} :
    v ∈ c.versions ↔ v ∈ c.superseded ∨ v = c.current := by
  simp [versions]

theorem current_mem_versions (c : Calendar) : c.current ∈ c.versions :=
  mem_versions.mpr (.inr rfl)

theorem versionAt_mem_versions (c : Calendar) (d : Date) : c.versionAt d ∈ c.versions := by
  rw [versionAt, mem_versions]
  cases h : c.superseded.find? (·.outlasts d) with
  | none => exact .inr rfl
  | some v => exact .inl (List.mem_of_find?_eq_some h)

theorem mem_parents {c : Calendar} {p : CalendarId} :
    p ∈ c.parents ↔ ∃ v ∈ c.versions, v.parent = some p := by
  simp [parents]

theorem current_expires {c : Calendar} (h : Version.DivideTime c.versions) :
    c.current.expires = none := by
  obtain ⟨bs, -, hends, -⟩ := h
  have := congrArg List.getLast? hends
  simpa [versions] using this

theorem versionAt_eq_iff {c : Calendar} (h : Version.DivideTime c.versions) {d : Date}
    {v : Version} : c.versionAt d = v ↔ v ∈ c.versions ∧ v.contains d = true := by
  have hcurrent : c.current.outlasts d = true := by
    simp [Version.outlasts_iff, current_expires h]
  rw [← h.find?_outlasts_iff, versions, List.find?_append, versionAt]
  cases c.superseded.find? (·.outlasts d) <;> simp [hcurrent]

theorem contains_versionAt {c : Calendar} (h : Version.DivideTime c.versions) (d : Date) :
    (c.versionAt d).contains d = true :=
  ((versionAt_eq_iff h).mp rfl).2

theorem versionAt_eq_current {c : Calendar} (h : Version.DivideTime c.versions) {d : Date}
    (hd : c.current.contains d = true) : c.versionAt d = c.current :=
  (versionAt_eq_iff h).mpr ⟨c.current_mem_versions, hd⟩

theorem find?_outlasts_of_lt {c : Calendar} (h : Version.DivideTime c.versions) {s d : Date}
    (hs : c.current.validFrom = some s) (hd : d < s) :
    c.superseded.find? (·.outlasts d) = some (c.versionAt d) := by
  have hin := contains_versionAt h d
  rw [versionAt] at hin ⊢
  cases hfind : c.superseded.find? (·.outlasts d) with
  | some v => rfl
  | none =>
      rw [hfind] at hin
      have hsd : s ≤ d := (Version.contains_iff.mp hin).1 s hs
      exact absurd hsd (Date.not_le.mpr hd)

theorem ofVersions_eq_ok_iff {id : CalendarId} {name : String} {vs : List Version}
    {c : Calendar} :
    ofVersions id name vs = .ok c ↔
      Version.DivideTime vs ∧ c.id = id ∧ c.name = name ∧ c.versions = vs := by
  rw [← Version.checkChain_eq_ok_iff]
  simp only [ofVersions, Version.validateChain, Answer.bind_eq_ok_iff,
    Answer.mapError_eq_ok_iff, Answer.pure_eq_ok_iff]
  constructor
  · rintro ⟨_, hchain, rfl⟩
    have hne : vs ≠ [] := by
      rintro rfl
      simp [Version.checkChain] at hchain
    refine ⟨hchain, rfl, rfl, ?_⟩
    rw [versions, List.getLast?_eq_some_getLast hne]
    exact List.dropLast_concat_getLast hne
  · rintro ⟨hchain, rfl, rfl, rfl⟩
    exact ⟨(), hchain, by simp [versions]⟩

/-! ## Edits as data -/

/-- An edit of one calendar with its arguments. -/
inductive Edit where
  | setHours (w : Weekday) (hours : Option Int)
  | setInherited (w : Weekday)
  | setHoursPerDay (hours : List (Weekday × Option Int))
  | addException (e : ExceptionDay)
  | removeException (d : Date)
  | updateException (d : Date) (hours : Int) (category : Category)
  | newVersion (start : Date)
  | setExpires (d reference : Date)
  | setValidFrom (d reference : Date)

def Edit.run (c : Calendar) : Edit → Except RuleError Calendar
  | setHours w hours => c.setHours w hours
  | setInherited w => .ok (c.setInherited w)
  | setHoursPerDay hours => c.setHoursPerDay hours
  | addException e => c.addException e
  | removeException d => (·.2) <$> c.removeException d
  | updateException d hours category => c.updateException d hours category
  | newVersion start => c.newVersion start
  | setExpires d reference => c.setExpires d reference
  | setValidFrom d reference => c.setValidFrom d reference

/-- What a successful edit makes of a calendar. -/
inductive Edited (c : Calendar) : Calendar → Prop
  /-- Other weekday rules or exceptions in the current version. -/
  | rules {v : Version} : v.parent = c.current.parent → v.validFrom = c.current.validFrom →
      v.expires = c.current.expires → Edited c { c with current := v }
  /-- A new current version with the same rules. -/
  | version {start : Date} : (∀ first ∈ c.current.validFrom, first < start) →
      Edited c
        { c with
          superseded := c.superseded ++ [{ c.current with expires := some start }]
          current := c.current.successor start }
  /-- Another boundary between a superseded version and the one after it. -/
  | boundary {i : Nat} {earlier : Version} {d : Date} : c.superseded[i]? = some earlier →
      isBetween earlier.validFrom d (c.superseded[i + 1]?.getD c.current).expires = true →
      Edited c (c.withBoundary i d)

/-- Another current version, with the parent and the bounds of the present
one. -/
structure Reruled (c c' : Calendar) : Prop where
  parent : c'.current.parent = c.current.parent
  validFrom : c'.current.validFrom = c.current.validFrom
  expires : c'.current.expires = c.current.expires
  rest : c' = { c with current := c'.current }

theorem Reruled.edited {c c' : Calendar} (h : Reruled c c') : Edited c c' := by
  rw [h.rest]
  exact .rules h.parent h.validFrom h.expires

theorem reruled_of_setHours {c c' : Calendar} {w : Weekday} {hours : Option Int}
    (h : c.setHours w hours = .ok c') : Reruled c c' := by
  simp only [setHours, Answer.bind_eq_ok_iff, Answer.pure_eq_ok_iff] at h
  obtain ⟨rule, -, rfl⟩ := h
  exact ⟨rfl, rfl, rfl, rfl⟩

theorem reruled_of_setHoursPerDay {c c' : Calendar} {hours : List (Weekday × Option Int)}
    (h : c.setHoursPerDay hours = .ok c') : Reruled c c' := by
  simp only [setHoursPerDay, Answer.bind_eq_ok_iff, Answer.pure_eq_ok_iff] at h
  obtain ⟨rules, -, rfl⟩ := h
  exact ⟨rfl, rfl, rfl, rfl⟩

theorem reruled_of_addException {c c' : Calendar} {e : ExceptionDay}
    (h : c.addException e = .ok c') : Reruled c c' := by
  simp only [addException, Version.addException, Answer.bind_eq_ok_iff,
    Answer.pure_eq_ok_iff] at h
  obtain ⟨v, hv, rfl⟩ := h
  split at hv
  · cases hv
  · split at hv
    · cases hv
    · cases hv
      exact ⟨rfl, rfl, rfl, rfl⟩

theorem reruled_of_removeException {c : Calendar} {d : Date} {answer : ExceptionDay × Calendar}
    (h : c.removeException d = .ok answer) : Reruled c answer.2 := by
  simp only [removeException, Version.removeException, Answer.bind_eq_ok_iff,
    Answer.pure_eq_ok_iff] at h
  obtain ⟨⟨e, v⟩, hv, rfl⟩ := h
  split at hv
  · cases hv
    exact ⟨rfl, rfl, rfl, rfl⟩
  · cases hv

theorem reruled_of_updateException {c c' : Calendar} {d : Date} {hours : Int}
    {category : Category} (h : c.updateException d hours category = .ok c') : Reruled c c' := by
  simp only [updateException, Version.updateException, Answer.bind_eq_ok_iff,
    Answer.pure_eq_ok_iff, Answer.require_eq_ok_iff] at h
  obtain ⟨v, ⟨e, -, -, rfl⟩, rfl⟩ := h
  exact ⟨rfl, rfl, rfl, rfl⟩

theorem newVersion_eq_ok_iff {c c' : Calendar} {start : Date} :
    c.newVersion start = .ok c' ↔
      (∀ first ∈ c.current.validFrom, first < start) ∧
        c' = { c with
          superseded := c.superseded ++ [{ c.current with expires := some start }]
          current := c.current.successor start } := by
  have hlater : c.current.validFrom.filter (start ≤ ·) = none ↔
      ∀ first ∈ c.current.validFrom, first < start := by
    simp only [Option.filter_eq_none_iff, decide_eq_true_eq, Date.not_le]
    rfl
  rw [newVersion, ← hlater]
  cases c.current.validFrom.filter (start ≤ ·) with
  | none => simp [eq_comm]
  | some first => simp

theorem edited_of_newVersion {c c' : Calendar} {start : Date}
    (h : c.newVersion start = .ok c') : Edited c c' := by
  obtain ⟨hlater, rfl⟩ := newVersion_eq_ok_iff.mp h
  exact .version hlater

theorem edited_of_moveBoundary {c c' : Calendar} {i : Nat} {earlier : Version} {d : Date}
    (hi : c.superseded[i]? = some earlier) (h : c.moveBoundary i earlier d = .ok c') :
    Edited c c' := by
  rw [moveBoundary] at h
  split at h
  next hbetween =>
    cases h
    exact .boundary hi hbetween
  · cases h

theorem edited_of_setExpires {c c' : Calendar} {d reference : Date}
    (h : c.setExpires d reference = .ok c') : Edited c c' := by
  simp only [setExpires] at h
  split at h
  next hi => exact edited_of_moveBoundary hi h
  · cases h

theorem edited_of_setValidFrom {c c' : Calendar} {d reference : Date}
    (h : c.setValidFrom d reference = .ok c') : Edited c c' := by
  simp only [setValidFrom] at h
  split at h
  next hindex hi =>
    rw [hindex, Nat.succ_sub_one] at hi
    exact edited_of_moveBoundary hi h
  · cases h

theorem Edit.edited_of_run {c c' : Calendar} {e : Edit} (h : e.run c = .ok c') :
    Edited c c' := by
  cases e with
  | setHours w hours => exact (reruled_of_setHours h).edited
  | setInherited w =>
      cases h
      exact .rules rfl rfl rfl
  | setHoursPerDay hours => exact (reruled_of_setHoursPerDay h).edited
  | addException e => exact (reruled_of_addException h).edited
  | removeException d =>
      obtain ⟨answer, hanswer, rfl⟩ := Answer.map_eq_ok_iff.mp h
      exact (reruled_of_removeException hanswer).edited
  | updateException d hours category => exact (reruled_of_updateException h).edited
  | newVersion start => exact edited_of_newVersion h
  | setExpires d reference => exact edited_of_setExpires h
  | setValidFrom d reference => exact edited_of_setValidFrom h

/-! ## Versions around a moved boundary -/

/-- What becomes of the version at place `j` when the boundary after place `i`
moves. -/
def movedAt (i : Nat) (d : Date) (j : Nat) (v : Version) : Version :=
  if j = i then { v with expires := some d }
  else if j = i + 1 then { v with validFrom := some d }
  else v

theorem toRules_movedAt {i : Nat} {d : Date} (j : Nat) (v : Version) :
    (movedAt i d j v).toRules = v.toRules := by
  rw [movedAt]
  split
  · rfl
  · split <;> rfl

section WithBoundary

variable {c : Calendar} {i : Nat} {d : Date}

theorem getElem?_versions_withBoundary (hi : i < c.superseded.length) (j : Nat) :
    (c.withBoundary i d).versions[j]? = c.versions[j]?.map (movedAt i d j) := by
  simp only [versions, withBoundary, List.getElem?_append, List.length_modify,
    List.getElem?_modify, Functor.map, Option.map_map]
  rcases Nat.lt_trichotomy j c.superseded.length with hj | rfl | hj
  · simp only [hj, if_true]
    congr 1
    funext v
    grind [movedAt]
  · simp
    grind [movedAt]
  · grind [movedAt]

theorem map_toRules_withBoundary (hi : i < c.superseded.length) :
    (c.withBoundary i d).versions.map (·.toRules) = c.versions.map (·.toRules) := by
  refine List.ext_getElem? ?_
  intro j
  rw [List.getElem?_map, getElem?_versions_withBoundary hi, Option.map_map, List.getElem?_map]
  congr 1
  funext v
  exact toRules_movedAt j v

/-- What a moved boundary changes at one place only, it sets at that place. -/
theorem map_versions_withBoundary {β : Type} {f : Version → β} {k : Nat} {x : β}
    (hi : i < c.superseded.length) (hk : k < c.versions.length)
    (hplace : ∀ v, f (movedAt i d k v) = x)
    (hother : ∀ j, j ≠ k → ∀ v, f (movedAt i d j v) = f v) :
    (c.withBoundary i d).versions.map f = (c.versions.map f).set k x := by
  refine List.ext_getElem? ?_
  intro j
  rw [List.getElem?_map, getElem?_versions_withBoundary hi, Option.map_map, List.getElem?_set,
    List.length_map, List.getElem?_map]
  by_cases hj : j = k
  · subst hj
    simp [hk, hplace]
  · have hkj : ¬ k = j := fun h => hj h.symm
    rw [if_neg hkj]
    congr 1
    funext v
    exact hother j hj v

theorem map_validFrom_withBoundary (hi : i < c.superseded.length) :
    (c.withBoundary i d).versions.map (·.validFrom) =
      (c.versions.map (·.validFrom)).set (i + 1) (some d) := by
  have hlen : i + 1 < c.versions.length := by simpa [versions] using hi
  refine map_versions_withBoundary hi hlen ?_ ?_
  · intro v
    simp [movedAt]
  · intro j hj v
    rw [movedAt, if_neg hj]
    split <;> rfl

theorem map_expires_withBoundary (hi : i < c.superseded.length) :
    (c.withBoundary i d).versions.map (·.expires) =
      (c.versions.map (·.expires)).set i (some d) := by
  have hlen : i < c.versions.length := by simp [versions]; omega
  refine map_versions_withBoundary hi hlen ?_ ?_
  · intro v
    simp [movedAt]
  · intro j hj v
    rw [movedAt, if_neg hj]
    split <;> rfl

end WithBoundary

/-! ## Boundaries in order -/

theorem pairwise_set_of_between {bs : List Date} {i : Nat} {d : Date}
    (h : bs.Pairwise (· < ·)) (hlow : ∀ a ∈ (none :: bs.map some)[i]?.join, a < d)
    (hhigh : ∀ b ∈ bs[i + 1]?, d < b) : (bs.set i d).Pairwise (· < ·) := by
  have hlt := List.pairwise_iff_getElem.mp h
  refine List.pairwise_iff_getElem.mpr ?_
  intro j k hj' hk' hjk
  have hj : j < bs.length := by simpa using hj'
  have hk : k < bs.length := by simpa using hk'
  simp only [List.getElem_set]
  by_cases hij : i = j
  · -- everything after place `i` comes after the upper neighbour
    subst hij
    have hd : d < bs[i + 1] := hhigh _ (by simp)
    rw [if_pos rfl, if_neg (by omega)]
    rcases Nat.lt_or_eq_of_le (Nat.succ_le_of_lt hjk) with hik | rfl
    · exact Nat.lt_trans hd (hlt (i + 1) k (by omega) hk hik)
    · exact hd
  · rw [if_neg hij]
    by_cases hik : i = k
    · -- everything before place `i` comes before the lower neighbour
      obtain ⟨n, rfl⟩ : ∃ n, i = n + 1 := ⟨i - 1, by omega⟩
      subst hik
      have hn : n < bs.length := by omega
      have hd : bs[n] < d := hlow _ (by simp [hn])
      rw [if_pos rfl]
      rcases Nat.lt_or_eq_of_le (Nat.le_of_lt_succ hjk) with hjn | rfl
      · exact Nat.lt_trans (hlt j n hj hn hjn) hd
      · exact hd
    · rw [if_neg hik]
      exact hlt j k hj hk hjk

theorem pairwise_concat_of_last_lt {bs : List Date} {d : Date} (h : bs.Pairwise (· < ·))
    (hlast : ∀ a ∈ bs.getLast?, a < d) : (bs ++ [d]).Pairwise (· < ·) := by
  refine List.pairwise_append.mpr ⟨h, List.pairwise_singleton .., ?_⟩
  intro a ha b hb
  obtain rfl := List.mem_singleton.mp hb
  rcases List.eq_nil_or_concat' bs with rfl | ⟨init, last, rfl⟩
  · cases ha
  · have hld : last < b := hlast last (by simp)
    rcases List.mem_append.mp ha with ha | ha
    · exact Nat.lt_trans ((List.pairwise_append.mp h).2.2 a ha last (by simp)) hld
    · exact List.mem_singleton.mp ha ▸ hld

/-! ## What edits keep -/

theorem Edited.id_eq {c c' : Calendar} (h : Edited c c') : c'.id = c.id := by
  cases h <;> rfl

theorem Edited.name_eq {c c' : Calendar} (h : Edited c c') : c'.name = c.name := by
  cases h <;> rfl

theorem Edited.mem_parents {c c' : Calendar} (h : Edited c c') {p : CalendarId} :
    p ∈ c'.parents ↔ p ∈ c.parents := by
  cases h with
  | rules hparent _ _ => simp [parents, versions, hparent]
  | version _ => simp [parents, versions, Version.successor]
  | @boundary i earlier d hi _ =>
      have hlen : i < c.superseded.length := (List.getElem?_eq_some_iff.mp hi).1
      have hmap := congrArg (List.filterMap (·.parent)) (map_toRules_withBoundary (d := d) hlen)
      simp only [List.filterMap_map] at hmap
      rw [parents, parents]
      exact iff_of_eq (congrArg (p ∈ ·) hmap)

theorem divideTime_withCurrent {c : Calendar} {v : Version}
    (hfrom : v.validFrom = c.current.validFrom) (hexp : v.expires = c.current.expires)
    (h : Version.DivideTime c.versions) :
    Version.DivideTime { c with current := v }.versions := by
  obtain ⟨bs, hstarts, hends, hasc⟩ := h
  refine ⟨bs, ?_, ?_, hasc⟩
  · simpa [versions, hfrom] using hstarts
  · simpa [versions, hexp] using hends

theorem divideTime_version {c : Calendar} {start : Date}
    (hlt : ∀ first ∈ c.current.validFrom, first < start)
    (h : Version.DivideTime c.versions) :
    Version.DivideTime
      (c.superseded ++ [{ c.current with expires := some start }, c.current.successor start]) := by
  obtain ⟨bs, hstarts, hends, hasc⟩ := h
  simp only [versions, List.map_append, List.map_cons, List.map_nil] at hstarts hends
  have hlast : c.current.validFrom = bs.getLast? := by
    have := congrArg List.getLast? hstarts
    simp only [List.getLast?_append, List.getLast?_cons, List.getLast?_map] at this
    cases hbs : bs.getLast? <;> simpa [hbs] using this
  have hsup : c.superseded.map (·.expires) = bs.map some ∧ c.current.expires = none := by
    simpa using hends
  refine ⟨bs ++ [start], ?_, ?_, pairwise_concat_of_last_lt hasc (hlast ▸ hlt)⟩
  · rw [List.map_append, List.map_append, ← List.cons_append, ← hstarts]
    simp [Version.successor]
  · simp [hsup.1, Version.successor]

theorem divideTime_withBoundary {c : Calendar} {i : Nat} {earlier : Version} {d : Date}
    (hi : c.superseded[i]? = some earlier)
    (hbetween :
      isBetween earlier.validFrom d (c.superseded[i + 1]?.getD c.current).expires = true)
    (h : Version.DivideTime c.versions) :
    Version.DivideTime (c.withBoundary i d).versions := by
  have hlen : i < c.superseded.length := (List.getElem?_eq_some_iff.mp hi).1
  obtain ⟨bs, hstarts, hends, hasc⟩ := h
  have hbs : bs.length = c.superseded.length := by
    have := congrArg List.length hends
    simpa [versions] using this.symm
  have hearlier : (none :: bs.map some)[i]? = some earlier.validFrom := by
    rw [← hstarts, List.getElem?_map, versions, List.getElem?_append_left hlen, hi]
    rfl
  have hlater : (bs.map some ++ [none])[i + 1]? =
      some (c.superseded[i + 1]?.getD c.current).expires := by
    rw [← hends, List.getElem?_map, versions]
    rcases Nat.lt_or_eq_of_le (show i + 1 ≤ c.superseded.length from hlen) with hlt | heq
    · rw [List.getElem?_append_left hlt, List.getElem?_eq_getElem hlt]
      rfl
    · rw [heq, List.getElem?_concat_length, List.getElem?_eq_none (Nat.le_refl _)]
      rfl
  simp only [isBetween, Bool.and_eq_true, Option.all_eq_true, decide_eq_true_eq] at hbetween
  refine ⟨bs.set i d, ?_, ?_, pairwise_set_of_between hasc ?_ ?_⟩
  · rw [map_validFrom_withBoundary hlen, hstarts, List.set_cons_succ, List.map_set]
  · rw [map_expires_withBoundary hlen, hends, List.map_set]
    exact List.set_append_left _ _ (by simpa [hbs] using hlen)
  · intro a ha
    rw [hearlier] at ha
    exact hbetween.1 a ha
  · intro b hb
    refine hbetween.2 b ?_
    have hb' : (bs.map some ++ [none])[i + 1]? = some (some b) := by
      obtain ⟨hlt, rfl⟩ := List.getElem?_eq_some_iff.mp hb
      simp [List.getElem?_append, hlt]
    exact Option.some.inj (hlater.symm.trans hb')

theorem Edited.divideTime {c c' : Calendar} (h : Edited c c')
    (htime : Version.DivideTime c.versions) : Version.DivideTime c'.versions := by
  cases h with
  | rules _ hfrom hexp => exact divideTime_withCurrent hfrom hexp htime
  | version hlt => simpa [versions] using divideTime_version hlt htime
  | boundary hi hbetween => exact divideTime_withBoundary hi hbetween htime

end WorkingTime.Calendar
