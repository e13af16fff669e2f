/-
The versions of a calendar in the course of a run.

A calendar that is not removed keeps the versions that it has, in their places; the
superseded ones keep their rules, and their bounds too while no boundary is moved
(`Calendar.Continues`).  One step changes as much as one edit does, and the steps of
a run add up (`continues_of_smooth`).  A moved boundary is one bound of each of two
neighbours, and no other (`Calendar.BoundaryMoved`).
-/
import WorkingTime.Proofs.Registry.Frame
import WorkingTime.Proofs.Registry.Past
import WorkingTime.Proofs.Registry.Run

namespace WorkingTime

/-! ## Edits and the versions there were -/

namespace Calendar

/-- How a calendar stands after `opened` new versions were opened, and boundaries
moved if `moved` says so. -/
structure Continues (c : Calendar) (opened : Nat) (moved : Bool) (c' : Calendar) : Prop where
  id_eq : c'.id = c.id
  length_eq : c'.versions.length = c.versions.length + opened
  /-- Each version before the current one is found in its place with its weekdays,
  its exceptions and its parent. -/
  rules : c.superseded.map (·.toRules) <+: c'.superseded.map (·.toRules)
  /-- Only a moved boundary changes its bounds. -/
  bounds : moved = false → c.superseded <+: c'.superseded

/-- The calendar `c'` is `c` with `d` as the boundary between version `i` and the
next: the end of the one, the start of the other, and nothing else. -/
structure BoundaryMoved (c : Calendar) (i : Nat) (d : Date) (c' : Calendar) : Prop where
  inside : i + 1 < c.versions.length
  rules : c'.versions.map (·.toRules) = c.versions.map (·.toRules)
  ends : c'.versions.map (·.expires) = (c.versions.map (·.expires)).set i (some d)
  starts : c'.versions.map (·.validFrom) = (c.versions.map (·.validFrom)).set (i + 1) (some d)

def Edit.opensVersion : Edit → Bool
  | newVersion _ => true
  | _ => false

variable {c c' c'' : Calendar}

theorem length_versions (c : Calendar) : c.versions.length = c.superseded.length + 1 := by
  simp [versions]

theorem Continues.trans {n n' : Nat} {b b' : Bool} (h : c.Continues n b c')
    (h' : c'.Continues n' b' c'') : c.Continues (n + n') (b || b') c'' where
  id_eq := h'.id_eq.trans h.id_eq
  length_eq := by rw [h'.length_eq, h.length_eq, Nat.add_assoc]
  rules := h.rules.trans h'.rules
  bounds hb := by
    obtain ⟨hb, hb'⟩ := Bool.or_eq_false_iff.mp hb
    exact (h.bounds hb).trans (h'.bounds hb')

theorem continues_of_superseded_eq (hid : c'.id = c.id) (hsup : c'.superseded = c.superseded) :
    c.Continues 0 false c' where
  id_eq := hid
  length_eq := by rw [length_versions, length_versions, hsup, Nat.add_zero]
  rules := by rw [hsup]
  bounds _ := by rw [hsup]

theorem continues_of_reruled (h : Reruled c c') : c.Continues 0 false c' := by
  rw [h.rest]
  exact continues_of_superseded_eq rfl rfl

theorem continues_of_newVersion {start : Date} (h : c.newVersion start = .ok c') :
    c.Continues 1 false c' := by
  obtain ⟨-, rfl⟩ := newVersion_eq_ok_iff.mp h
  refine ⟨rfl, by simp [versions], ?_, fun _ => List.prefix_append _ _⟩
  rw [List.map_append]
  exact List.prefix_append _ _

/-! ### Boundaries -/

theorem boundaryMoved_of_moveBoundary {i : Nat} {earlier : Version} {d : Date}
    (hi : c.superseded[i]? = some earlier) (h : c.moveBoundary i earlier d = .ok c') :
    c.BoundaryMoved i d c' := by
  have hlen : i < c.superseded.length := (List.getElem?_eq_some_iff.mp hi).1
  rw [moveBoundary] at h
  split at h
  · cases h
    exact ⟨by rw [length_versions]; omega, map_toRules_withBoundary hlen,
      map_expires_withBoundary hlen, map_validFrom_withBoundary hlen⟩
  · cases h

theorem boundaryMoved_of_setExpires {d reference : Date} (h : c.setExpires d reference = .ok c') :
    c.BoundaryMoved (c.versionIndexAt reference) d c' := by
  simp only [setExpires] at h
  split at h
  next hi => exact boundaryMoved_of_moveBoundary hi h
  · cases h

theorem boundaryMoved_of_setValidFrom {d reference : Date}
    (h : c.setValidFrom d reference = .ok c') :
    ∃ i, c.versionIndexAt reference = i + 1 ∧ c.BoundaryMoved i d c' := by
  simp only [setValidFrom] at h
  split at h
  next hindex hi =>
    rw [hindex, Nat.succ_sub_one] at hi
    exact ⟨_, hindex, boundaryMoved_of_moveBoundary hi h⟩
  · cases h

theorem BoundaryMoved.continues {i : Nat} {d : Date} (h : c.BoundaryMoved i d c')
    (hid : c'.id = c.id) : c.Continues 0 true c' where
  id_eq := hid
  length_eq := by simpa using congrArg List.length h.rules
  rules := by
    have hsup := congrArg List.dropLast h.rules
    simp only [versions, List.map_append, List.map_cons, List.map_nil,
      List.dropLast_concat] at hsup
    rw [hsup]
  bounds hmoved := absurd hmoved (by decide)

theorem Edit.continues_of_run {e : Edit} (h : e.run c = .ok c') :
    c.Continues e.opensVersion.toNat e.movesBoundary c' := by
  have hid : c'.id = c.id := (Edit.edited_of_run h).id_eq
  cases e with
  | setHours w hours => exact continues_of_reruled (reruled_of_setHours h)
  | setInherited w =>
      cases h
      exact continues_of_superseded_eq rfl rfl
  | setHoursPerDay hours => exact continues_of_reruled (reruled_of_setHoursPerDay h)
  | addException e => exact continues_of_reruled (reruled_of_addException h)
  | removeException d =>
      obtain ⟨answer, hanswer, rfl⟩ := Answer.map_eq_ok_iff.mp h
      exact continues_of_reruled (reruled_of_removeException hanswer)
  | updateException d hours category => exact continues_of_reruled (reruled_of_updateException h)
  | newVersion start => exact continues_of_newVersion h
  | setExpires d reference => exact (boundaryMoved_of_setExpires h).continues hid
  | setValidFrom d reference =>
      obtain ⟨i, -, hmoved⟩ := boundaryMoved_of_setValidFrom h
      exact hmoved.continues hid

end Calendar

/-! ## Steps -/

namespace Step

variable (id : CalendarId)

def removes : Step → Bool
  | operation (.remove k) => k = id
  | _ => false

def opensVersion : Step → Bool
  | operation (.edit k e) => k = id && e.opensVersion
  | _ => false

def movesBoundary : Step → Bool
  | operation (.edit k e) => k = id && e.movesBoundary
  | _ => false

end Step

namespace Registry

variable {r r' : Registry} {c : Calendar}

/-- An operation that removes another calendar, or none, leaves this one to go on. -/
theorem continues_of_perform (h : r.WellFormed) (hc : c ∈ r.calendars.rows) {op : Operation}
    {id : CalendarId} (hid : op.target r = some id)
    (hop : (Step.operation op).removes c.id = false)
    (hperform : r.perform op = .ok r') :
    ∃ c' ∈ r'.calendars.rows,
      c.Continues ((Step.operation op).opensVersion c.id).toNat
        ((Step.operation op).movesBoundary c.id) c' := by
  have hsame : c.Continues 0 false c := Calendar.continues_of_superseded_eq rfl rfl
  have huntouched : c.id ≠ id → c ∈ r'.calendars.rows :=
    fun hne => ((frame_of_perform hperform hid).others c hne).mpr hc
  cases op with
  | create _ | derive _ _ | copy _ _ =>
      obtain rfl := Option.some.inj hid
      exact ⟨c, huntouched (h.ne_nextId hc), hsame⟩
  | remove k =>
      obtain rfl := Option.some.inj hid
      exact ⟨c, huntouched (Ne.symm (of_decide_eq_false hop)), hsame⟩
  | rename k text =>
      obtain rfl := Option.some.inj hid
      by_cases hk : k = c.id
      · obtain ⟨x, name, hx, hxid, -, -, rfl⟩ := of_rename hperform
        obtain rfl : x = c := eq_of_id_eq hx hc (hxid.trans hk)
        exact ⟨_, mem_put.mpr (.inl rfl), Calendar.continues_of_superseded_eq rfl rfl⟩
      · exact ⟨c, huntouched (Ne.symm hk), hsame⟩
  | setParent k parent =>
      obtain rfl := Option.some.inj hid
      by_cases hk : k = c.id
      · obtain ⟨x, hx, hxid, -, rfl⟩ := of_setParent hperform
        obtain rfl : x = c := eq_of_id_eq hx hc (hxid.trans hk)
        exact ⟨_, mem_put.mpr (.inl rfl), Calendar.continues_of_superseded_eq rfl rfl⟩
      · exact ⟨c, huntouched (Ne.symm hk), hsame⟩
  | edit k e =>
      obtain rfl := Option.some.inj hid
      simp only [Step.opensVersion, Step.movesBoundary]
      by_cases hk : k = c.id
      · obtain ⟨x, hx, hxid, c', hrun, rfl⟩ := of_edit hperform
        obtain rfl : x = c := eq_of_id_eq hx hc (hxid.trans hk)
        simp only [hk, decide_true, Bool.true_and]
        exact ⟨c', mem_put.mpr (.inl rfl), Calendar.Edit.continues_of_run hrun⟩
      · simp only [hk, decide_false, Bool.false_and, Bool.toNat_false]
        exact ⟨c, huntouched (Ne.symm hk), hsame⟩
  | apply _ | applyAll _ => cases hid

theorem continues_of_step (h : r.Reachable) (hc : c ∈ r.calendars.rows) {s : Step}
    (hs : r.Smooth [s]) (hkept : s.removes c.id = false) :
    ∃ c' ∈ (r.step s).calendars.rows,
      c.Continues (s.opensVersion c.id).toNat (s.movesBoundary c.id) c' := by
  cases s with
  | reload pretty =>
      rw [step_reload h]
      exact ⟨c, hc, Calendar.continues_of_superseded_eq rfl rfl⟩
  | operation op =>
      obtain ⟨id, r', hid, hperform, -⟩ := hs
      rw [step_operation hperform]
      exact continues_of_perform h.wellFormed hc hid hkept hperform

/-! ## Runs -/

/-- The steps of a run add up. -/
theorem continues_of_smooth {steps : List Step} (h : r.Reachable) (hc : c ∈ r.calendars.rows)
    (hsteps : r.Smooth steps) (hkept : ∀ s ∈ steps, s.removes c.id = false) :
    ∃ c' ∈ (r.run steps).calendars.rows,
      c.Continues (steps.countP (·.opensVersion c.id)) (steps.any (·.movesBoundary c.id)) c' := by
  induction steps generalizing r c with
  | nil => exact ⟨c, hc, Calendar.continues_of_superseded_eq rfl rfl⟩
  | cons s steps ih =>
      obtain ⟨hs, hrest⟩ := smooth_cons.mp hsteps
      obtain ⟨hfirstKept, hrestKept⟩ := List.forall_mem_cons.mp hkept
      obtain ⟨c₁, hc₁, hfirst⟩ := continues_of_step h hc hs hfirstKept
      have hid : c₁.id = c.id := hfirst.id_eq
      obtain ⟨c', hc', hlater⟩ := ih (h.afterStep s) hc₁ hrest (hid.symm ▸ hrestKept)
      rw [hid] at hlater
      refine ⟨c', hc', ?_⟩
      rw [countP_cons_toNat, List.any_cons, Nat.add_comm]
      exact hfirst.trans hlater

theorem run_of_smooth_edit {c' : Calendar} {e : Calendar.Edit} (hc : c ∈ r.calendars.rows)
    (hs : r.Smooth [.operation (.edit c.id e)])
    (hc' : c' ∈ (r.run [.operation (.edit c.id e)]).calendars.rows) (hid : c'.id = c.id) :
    e.run c = .ok c' := by
  obtain ⟨-, r', -, hperform, -⟩ := hs
  change c' ∈ (r.step (.operation (.edit c.id e))).calendars.rows at hc'
  rw [step_operation hperform] at hc'
  obtain ⟨x, hx, hxid, made, hrun, rfl⟩ := of_edit hperform
  obtain rfl : x = c := eq_of_id_eq hx hc hxid
  have hmade : made.id = x.id := (Calendar.Edit.edited_of_run hrun).id_eq
  obtain rfl : c' = made := eq_of_id_eq hc' (mem_put.mpr (.inl rfl)) (hid.trans hmade.symm)
  exact hrun

/-- The history of a calendar only grows.  Whatever happens from one state of a run to
a later one, a calendar that is not removed then has all its versions and one more for
each that was opened; those before the last are found in their places with their
rules, and with their bounds too, unless a boundary of this calendar was moved.  To
move one sets the end of a version and the start of the next, and nothing else. -/
theorem history_append_only (h : r.Reachable) (steps : List Step) {p q : List Step}
    (hpq : p ++ q <+: r.spelledOut steps) (hc : c ∈ (r.run p).calendars.rows)
    (hkept : ∀ s ∈ q, s.removes c.id = false) :
    ∃ c' ∈ (r.run (p ++ q)).calendars.rows,
      c.Continues (q.countP (·.opensVersion c.id)) (q.any (·.movesBoundary c.id)) c' ∧
      (∀ d reference, q = [.operation (.edit c.id (.setExpires d reference))] →
        c.BoundaryMoved (c.versionIndexAt reference) d c') ∧
      ∀ d reference, q = [.operation (.edit c.id (.setValidFrom d reference))] →
        ∃ i, c.versionIndexAt reference = i + 1 ∧ c.BoundaryMoved i d c' := by
  have hsmooth := smooth_after hpq
  obtain ⟨c', hc', hcontinues⟩ := continues_of_smooth (h.run p) hc hsmooth hkept
  refine ⟨c', run_append r p q ▸ hc', hcontinues, ?_, ?_⟩
  · rintro d reference rfl
    have hrun := run_of_smooth_edit hc hsmooth hc' hcontinues.id_eq
    exact Calendar.boundaryMoved_of_setExpires hrun
  · rintro d reference rfl
    have hrun := run_of_smooth_edit hc hsmooth hc' hcontinues.id_eq
    exact Calendar.boundaryMoved_of_setValidFrom hrun

/-- Another version of "Summer" by name, its first boundary moved in the same batch, and
another name for it. -/
def summerSteps : List Step :=
  [.reload true,
   .operation (.applyAll
     [.newVersion "Summer" ⟨3652600, by decide⟩,
      .setExpiringDate "Summer" ⟨3652430, by decide⟩ ⟨3652400, by decide⟩]),
   .operation (.apply (.renameCalendar "Summer" "Warm"))]

theorem history_append_only_derived :
    ∃ c ∈ (empty.after derivedHistory).calendars.rows, c.versions.length = 2 ∧
      ∃ c' ∈ ((empty.after derivedHistory).run summerSteps).calendars.rows,
        c'.versions.length = 3 ∧
          c.superseded.map (·.toRules) <+: c'.superseded.map (·.toRules) := by
  have hreach := Reachable.empty.after derivedHistory
  have hsummer : ∃ c ∈ (empty.after derivedHistory).calendars.rows,
      c.id = summerId ∧ c.versions.length = 2 := by decide +kernel
  obtain ⟨c, hc, hid, hlength⟩ := hsummer
  have hspelled : (empty.after derivedHistory).spelledOut summerSteps =
      .reload true :: (empty.after derivedHistory).spelledOut (summerSteps.drop 1) := by
    rw [summerSteps, spelledOut, step_reload hreach]
    rfl
  have hsteps : ((empty.after derivedHistory).spelledOut summerSteps).all
        (fun s => !s.removes summerId) = true ∧
      ((empty.after derivedHistory).spelledOut summerSteps).countP
        (·.opensVersion summerId) = 1 := by
    rw [hspelled]
    decide +kernel
  have hkept : ∀ s ∈ (empty.after derivedHistory).spelledOut summerSteps,
      s.removes c.id = false := by
    intro s hs
    rw [hid]
    simpa using List.all_eq_true.mp hsteps.1 s hs
  obtain ⟨c', hc', hcontinues, -⟩ := history_append_only hreach summerSteps (p := [])
    (q := (empty.after derivedHistory).spelledOut summerSteps) (List.prefix_refl _) hc hkept
  rw [hid, hsteps.2] at hcontinues
  refine ⟨c, hc, hlength, c', ?_, ?_, hcontinues.rules⟩
  · rw [← (run_spelledOut (empty.after derivedHistory) summerSteps).2]
    exact hc'
  · rw [hcontinues.length_eq, hlength]

end Registry

end WorkingTime
