/-
Boundaries that are moved in a registry, and what is answered then.

A move is seen by the dates that the boundary passes over, and by no other: between
the old place and the new one there is another version in effect, and elsewhere the
rules of a date are the ones that they were (`MovesBoundary.sameOn`).  The same
boundary can be moved from both of its sides, and moved back from both of them, after
which the registry is the one before (`boundary_moves`).
-/
import WorkingTime.Proofs.Calendar.Boundary
import WorkingTime.Proofs.Registry.History
import WorkingTime.Proofs.Registry.Visited

namespace WorkingTime

theorem Version.decision?_of_toRules {v w : Version} (h : v.toRules = w.toRules) (d : Date) :
    v.decision? d = w.decision? d ∧ v.parent = w.parent := by
  cases v
  cases w
  obtain rfl := h
  exact ⟨rfl, rfl⟩

namespace Registry

variable {r r' : Registry} {c c' : Calendar} {i : Nat} {v w : Version} {b d reference : Date}

theorem put_back (hc : c ∈ r.calendars.rows) (hid : c'.id = c.id) : (r.put c').put c = r := by
  have hrows : ((r.put c').put c).calendars = r.calendars := by
    refine Table.eq_of_mem_iff fun x => ?_
    rw [mem_put, mem_put, hid]
    constructor
    · rintro (rfl | ⟨rfl | ⟨hx, -⟩, hne⟩)
      · exact hc
      · exact absurd hid hne
      · exact hx
    · intro hx
      by_cases hxc : x.id = c.id
      · exact .inl (eq_of_id_eq hx hc hxc)
      · exact .inr ⟨.inr ⟨hx, hxc⟩, hxc⟩
  exact congrArg (Registry.mk · r.nextId) hrows

/-- The calendar `c'` is `c` with the boundary after its version `i` moved from `b` to
`d`, and with `c'` in its place the registry has the answers that it had, except for
the dates between the two.  The move can be taken back from both sides. -/
structure MovesBoundary (r : Registry) (c : Calendar) (i : Nat) (b d : Date) (c' : Calendar) :
    Prop where
  id_eq : c'.id = c.id
  name_eq : c'.name = c.name
  moved : c.BoundaryMoved i d c'
  divideTime : Version.DivideTime c'.versions
  /-- No date before both places of the boundary, or from both on, is answered otherwise. -/
  sameOn : ∀ q date, date < b ∧ date < d ∨ b ≤ date ∧ d ≤ date → r.SameOn (r.put c') q date
  /-- The start of the later version, which is in effect on `d` now, moves back. -/
  undo_start : (r.put c').perform (.edit c.id (.setValidFrom b d)) = .ok r
  /-- So does the end of the earlier version, as long as it is in effect on some date. -/
  undo_end : ∀ u, c'.versions[i]? = some u → ∀ date, u.contains date = true →
    (r.put c').perform (.edit c.id (.setExpires b date)) = .ok r

theorem movesBoundary_withBoundary (h : r.WellFormed) (hc : c ∈ r.calendars.rows)
    (hn : c.Neighbours i v w b) (hlow : ∀ a ∈ v.validFrom, a < d)
    (hhigh : ∀ e ∈ w.expires, d < e) : r.MovesBoundary c i b d (c.withBoundary i d) := by
  have hmove : c.moveBoundary i v d = .ok (c.withBoundary i d) :=
    hn.moveBoundary_eq_ok_iff.mpr ⟨⟨hlow, hhigh⟩, rfl⟩
  have hedited := Calendar.edited_of_moveBoundary hn.superseded hmove
  have htime := hedited.divideTime (h.chained c hc)
  have hback := hn.moved hlow hhigh
  have hid : (c.withBoundary i d).id = c.id := rfl
  have hwf' : (r.put (c.withBoundary i d)).WellFormed := h.change (.edited hc hedited)
  -- whichever version is addressed, it is the same boundary that moves back
  have hundo : (c.withBoundary i d).moveBoundary i { v with expires := some d } b = .ok c :=
    hback.moveBoundary_eq_ok_iff.mpr ⟨⟨hn.after_start, hn.before_end⟩, hn.withBoundary_back.symm⟩
  have hrestored : ∀ e : Calendar.Edit, e.run (c.withBoundary i d) = .ok c →
      (r.put (c.withBoundary i d)).perform (.edit c.id e) = .ok r := by
    intro e he
    exact (perform_edit_iff mem_put_self).mpr ⟨c, he, (put_back hc hid).symm⟩
  refine ⟨hid, rfl, Calendar.boundaryMoved_of_moveBoundary hn.superseded hmove, htime, ?_, ?_, ?_⟩
  · intro q date hdate
    have hside : date < b ↔ date < d := by
      rcases hdate with ⟨hb, hd⟩ | ⟨hb, hd⟩
      · exact iff_of_true hb hd
      · exact iff_of_false (Date.not_lt.mpr hb) (Date.not_lt.mpr hd)
    obtain ⟨hdecision, hparent⟩ := Version.decision?_of_toRules
      (hn.toRules_versionAt (h.chained c hc) htime hside) date
    exact sameOn_of_resolve (resolve_put_of_decision hid h hwf' hc hdecision hparent q)
  · refine hrestored _ ((hback.setValidFrom_eq htime ?_).trans hundo)
    refine Version.contains_iff.mpr ⟨?_, Version.outlasts_iff.mpr hhigh⟩
    rintro a ⟨⟩
    exact Nat.le_refl _
  · intro u hu date hin
    obtain rfl := Option.some.inj (hback.earlier.symm.trans hu)
    exact hrestored _ ((hback.setExpires_eq htime hin).trans hundo)

section Edit

variable {e : Calendar.Edit} (hc : c ∈ r.calendars.rows) (hn : c.Neighbours i v w b)
  (he : e.run c = c.moveBoundary i v d)

include hc hn he

theorem perform_move_iff :
    (∃ r', r.perform (.edit c.id e) = .ok r') ↔
      (∀ a ∈ v.validFrom, a < d) ∧ ∀ x ∈ w.expires, d < x := by
  simp only [perform_edit_iff hc, he, hn.moveBoundary_eq_ok_iff]
  constructor
  · rintro ⟨r', c', ⟨hbetween, -⟩, -⟩
    exact hbetween
  · intro hbetween
    exact ⟨_, _, ⟨hbetween, rfl⟩, rfl⟩

theorem error_of_move {x : RegistryError} (hx : r.perform (.edit c.id e) = .error x) :
    x = .rule (.boundaryOutOfOrder d v.validFrom w.expires) := by
  rw [perform, edit_eq_put hc, he, hn.moveBoundary_eq] at hx
  split at hx
  · cases hx
  · cases hx
    rfl

theorem movesBoundary_of_perform (h : r.WellFormed) (hr' : r.perform (.edit c.id e) = .ok r') :
    ∃ c', r' = r.put c' ∧ r.MovesBoundary c i b d c' := by
  obtain ⟨c', hrun, rfl⟩ := (perform_edit_iff hc).mp hr'
  rw [he, hn.moveBoundary_eq_ok_iff] at hrun
  obtain ⟨⟨hlow, hhigh⟩, rfl⟩ := hrun
  exact ⟨_, rfl, movesBoundary_withBoundary h hc hn hlow hhigh⟩

end Edit

section Sides

variable (h : r.WellFormed) (hc : c ∈ r.calendars.rows) (hv : c.InEffect reference i v)

include h hc hv

theorem end_moves (d : Date) :
    ((∃ r', r.perform (.edit c.id (.setExpires d reference)) = .ok r') ↔
      ∃ w, c.versions[i + 1]? = some w ∧ (∀ a ∈ v.validFrom, a < d) ∧ ∀ x ∈ w.expires, d < x) ∧
    (∀ r', r.perform (.edit c.id (.setExpires d reference)) = .ok r' →
      ∃ b c', v.expires = some b ∧ r' = r.put c' ∧ r.MovesBoundary c i b d c') ∧
    ∀ w, c.versions[i + 1]? = some w → ∀ reference', w.contains reference' = true →
      r.perform (.edit c.id (.setValidFrom d reference')) =
          r.perform (.edit c.id (.setExpires d reference)) ∧
        ∀ x, r.perform (.edit c.id (.setExpires d reference)) = .error x →
          x = .rule (.boundaryOutOfOrder d v.validFrom w.expires) := by
  have htime := h.chained c hc
  cases hnext : c.versions[i + 1]? with
  | none =>
      have hrefused : ∀ r', r.perform (.edit c.id (.setExpires d reference)) ≠ .ok r' := by
        intro r' hr'
        obtain ⟨c', hrun, -⟩ := (perform_edit_iff hc).mp hr'
        cases (Calendar.setExpires_of_last htime hv hnext).symm.trans hrun
      refine ⟨⟨?_, ?_⟩, fun r' hr' => absurd hr' (hrefused r'), ?_⟩
      · rintro ⟨r', hr'⟩
        exact absurd hr' (hrefused r')
      · rintro ⟨w, hw, -⟩
        cases hw
      · intro w hw
        cases hw
  | some w =>
      obtain ⟨b, hn⟩ := Calendar.exists_neighbours htime hv.at_place hnext
      have he : (Calendar.Edit.setExpires d reference).run c = c.moveBoundary i v d :=
        hn.setExpires_eq htime hv.contains
      refine ⟨?_, ?_, ?_⟩
      · rw [perform_move_iff hc hn he]
        simp only [Option.some.injEq, exists_eq_left']
      · intro r' hr'
        obtain ⟨c', rfl, hmoves⟩ := movesBoundary_of_perform hc hn he h hr'
        exact ⟨b, c', hn.expires, rfl, hmoves⟩
      · rintro _ ⟨⟩ reference' hin
        have he' : (Calendar.Edit.setValidFrom d reference').run c = c.moveBoundary i v d :=
          hn.setValidFrom_eq htime hin
        refine ⟨?_, fun x hx => error_of_move hc hn he hx⟩
        rw [perform, perform, edit_eq_put hc, edit_eq_put hc, he, he']

theorem start_moves (d : Date) :
    ((∃ r', r.perform (.edit c.id (.setValidFrom d reference)) = .ok r') ↔
      ∃ j u, i = j + 1 ∧ c.versions[j]? = some u ∧
        (∀ a ∈ u.validFrom, a < d) ∧ ∀ x ∈ v.expires, d < x) ∧
    ∀ r', r.perform (.edit c.id (.setValidFrom d reference)) = .ok r' →
      ∃ j b c', i = j + 1 ∧ v.validFrom = some b ∧ r' = r.put c' ∧ r.MovesBoundary c j b d c' := by
  have htime := h.chained c hc
  cases i with
  | zero =>
      have hrefused : ∀ r', r.perform (.edit c.id (.setValidFrom d reference)) ≠ .ok r' := by
        intro r' hr'
        obtain ⟨c', hrun, -⟩ := (perform_edit_iff hc).mp hr'
        cases (Calendar.setValidFrom_of_first htime hv).symm.trans hrun
      refine ⟨⟨?_, ?_⟩, fun r' hr' => absurd hr' (hrefused r')⟩
      · rintro ⟨r', hr'⟩
        exact absurd hr' (hrefused r')
      · rintro ⟨j, u, hj, -⟩
        cases hj
  | succ j =>
      have hlen : j < c.versions.length :=
        Nat.lt_of_succ_lt (List.getElem?_eq_some_iff.mp hv.at_place).1
      have hu : c.versions[j]? = some c.versions[j] := List.getElem?_eq_getElem hlen
      obtain ⟨b, hn⟩ := Calendar.exists_neighbours htime hu hv.at_place
      have he : (Calendar.Edit.setValidFrom d reference).run c =
          c.moveBoundary j c.versions[j] d := hn.setValidFrom_eq htime hv.contains
      constructor
      · rw [perform_move_iff hc hn he]
        constructor
        · intro hbetween
          exact ⟨j, _, rfl, hu, hbetween⟩
        · rintro ⟨_, u, ⟨⟩, hu', hbetween⟩
          obtain rfl := Option.some.inj (hu.symm.trans hu')
          exact hbetween
      · intro r' hr'
        obtain ⟨c', rfl, hmoves⟩ := movesBoundary_of_perform hc hn he h hr'
        exact ⟨j, b, c', rfl, hn.starts, rfl, hmoves⟩

end Sides

/-- On every date one version of a calendar is in effect.  Its end moves exactly when
there is a next version and the new place is strictly between the start of the one
and the end of the other; its start moves exactly when there is a version before, and
likewise.  A boundary that is addressed from the later version is moved as it is from
the earlier one, or refused as it is there; a move changes no answers but those for
the dates between its two places, and can be taken back. -/
theorem boundary_moves (h : r.Reachable) (hc : c ∈ r.calendars.rows) (d reference : Date) :
    ∃ i v, c.InEffect reference i v ∧ (∀ j u, c.InEffect reference j u → j = i ∧ u = v) ∧
      ((∃ r', r.perform (.edit c.id (.setExpires d reference)) = .ok r') ↔
        ∃ w, c.versions[i + 1]? = some w ∧
          (∀ a ∈ v.validFrom, a < d) ∧ ∀ x ∈ w.expires, d < x) ∧
      (∀ r', r.perform (.edit c.id (.setExpires d reference)) = .ok r' →
        ∃ b c', v.expires = some b ∧ r' = r.put c' ∧ r.MovesBoundary c i b d c') ∧
      (∀ w, c.versions[i + 1]? = some w → ∀ reference', w.contains reference' = true →
        r.perform (.edit c.id (.setValidFrom d reference')) =
            r.perform (.edit c.id (.setExpires d reference)) ∧
          ∀ x, r.perform (.edit c.id (.setExpires d reference)) = .error x →
            x = .rule (.boundaryOutOfOrder d v.validFrom w.expires)) ∧
      ((∃ r', r.perform (.edit c.id (.setValidFrom d reference)) = .ok r') ↔
        ∃ j u, i = j + 1 ∧ c.versions[j]? = some u ∧
          (∀ a ∈ u.validFrom, a < d) ∧ ∀ x ∈ v.expires, d < x) ∧
      ∀ r', r.perform (.edit c.id (.setValidFrom d reference)) = .ok r' →
        ∃ j b c', i = j + 1 ∧ v.validFrom = some b ∧ r' = r.put c' ∧
          r.MovesBoundary c j b d c' := by
  have hwf := h.wellFormed
  have htime := hwf.chained c hc
  have hin := Calendar.inEffect_versionAt htime reference
  obtain ⟨hends, hend, hsame⟩ := end_moves hwf hc hin d
  obtain ⟨hstarts, hstart⟩ := start_moves hwf hc hin d
  refine ⟨_, _, hin, ?_, hends, hend, hsame, hstarts, hstart⟩
  intro j u hu
  exact ⟨hu.unique htime hin, (hu.versionAt_eq htime).symm⟩

/-- A date in the first version of "Summer". -/
abbrev springDay : Date := ⟨3652000, by decide⟩

/-- A date in its second version. -/
abbrev autumnDay : Date := ⟨3652620, by decide⟩

/-- The first version of "Summer" ends half a year later, and again where it ended. -/
theorem boundary_moves_derived :
    ∃ r', (empty.after derivedHistory).perform
        (.edit summerId (.setExpires autumnDay springDay)) = .ok r' ∧
      (∀ q, (empty.after derivedHistory).SameOn r' q autumnDay) ∧
      r'.perform (.edit summerId (.setValidFrom summerStart autumnDay)) =
        .ok (empty.after derivedHistory) := by
  obtain ⟨c, hc, hid, hfirst⟩ : ∃ c ∈ (empty.after derivedHistory).calendars.rows,
      c.id = summerId ∧ c.versions[0]?.any (fun u : Version =>
        u.contains springDay && u.expires == some summerStart) = true := by
    decide +kernel
  obtain ⟨u, hplace, hu⟩ := (Option.any_eq_true _ _).mp hfirst
  simp only [Bool.and_eq_true, beq_iff_eq] at hu
  obtain ⟨i, v, -, hunique, -, hmoves, -⟩ :=
    boundary_moves (Reachable.empty.after derivedHistory) hc autumnDay springDay
  obtain ⟨rfl, rfl⟩ := hunique 0 u ⟨hplace, hu.1⟩
  obtain ⟨r', hr', -⟩ := Answer.exists_ok_of_any
    (x := (empty.after derivedHistory).perform
      (.edit summerId (.setExpires autumnDay springDay)))
    (p := fun _ => true) (by decide +kernel)
  rw [hid] at hmoves
  obtain ⟨b, c', hb, rfl, hmove⟩ := hmoves r' hr'
  obtain rfl : summerStart = b := Option.some.inj (hu.2.symm.trans hb)
  have hafter : summerStart ≤ autumnDay ∧ autumnDay ≤ autumnDay := by decide
  have hback := hmove.undo_start
  rw [hid] at hback
  exact ⟨_, hr', fun q => hmove.sameOn q autumnDay (.inr hafter), hback⟩

end Registry

end WorkingTime
