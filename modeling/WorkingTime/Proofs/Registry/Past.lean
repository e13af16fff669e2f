/-
Dates before the current version of a calendar.

They belong to superseded versions, which no edit of rules, parent or version
reaches: such an edit leaves the superseded versions where they are and at most
puts another one behind them (`Calendar.Extends`).  So nothing that is answered
for these dates can change, for whichever calendar it is asked
(`past_frozen`).
-/
import WorkingTime.Proofs.Registry.Reachable
import WorkingTime.Proofs.Registry.Lineage

namespace WorkingTime

/-! ## Calendars that go on -/

namespace Calendar

/-- The superseded versions of a calendar are still the first ones, and its
current version does not start earlier. -/
structure Extends (c c' : Calendar) : Prop where
  id_eq : c'.id = c.id
  superseded : c.superseded <+: c'.superseded
  start : ∀ s ∈ c.current.validFrom, ∃ s' ∈ c'.current.validFrom, s ≤ s'

theorem extends_withCurrent {c : Calendar} {v : Version}
    (hv : v.validFrom = c.current.validFrom) : c.Extends { c with current := v } :=
  ⟨rfl, List.prefix_refl _, fun s hs => ⟨s, hv.trans hs, Nat.le_refl _⟩⟩

theorem Reruled.extends {c c' : Calendar} (h : Reruled c c') : c.Extends c' := by
  rw [h.rest]
  exact extends_withCurrent h.validFrom

theorem extends_setParent (c : Calendar) (parent : Option CalendarId) :
    c.Extends (c.setParent parent) :=
  extends_withCurrent rfl

theorem extends_of_newVersion {c c' : Calendar} {start : Date} (h : c.newVersion start = .ok c') :
    c.Extends c' := by
  obtain ⟨hlater, rfl⟩ := newVersion_eq_ok_iff.mp h
  exact ⟨rfl, List.prefix_append _ _, fun s hs => ⟨start, rfl, Nat.le_of_lt (hlater s hs)⟩⟩

def Edit.movesBoundary : Edit → Bool
  | setExpires _ _ | setValidFrom _ _ => true
  | _ => false

theorem Edit.extends_of_run {c c' : Calendar} {e : Edit} (he : e.movesBoundary = false)
    (h : e.run c = .ok c') : c.Extends c' := by
  cases e with
  | setHours w hours => exact (reruled_of_setHours h).extends
  | setInherited w =>
      cases h
      exact extends_withCurrent rfl
  | setHoursPerDay hours => exact (reruled_of_setHoursPerDay h).extends
  | addException e => exact (reruled_of_addException h).extends
  | removeException d =>
      obtain ⟨answer, hanswer, rfl⟩ := Answer.map_eq_ok_iff.mp h
      exact (reruled_of_removeException hanswer).extends
  | updateException d hours category => exact (reruled_of_updateException h).extends
  | newVersion start => exact extends_of_newVersion h
  | setExpires _ _ | setValidFrom _ _ => cases he

theorem Extends.versionAt_eq {c c' : Calendar} (h : c.Extends c')
    (htime : Version.DivideTime c.versions) {s d : Date} (hs : c.current.validFrom = some s)
    (hd : d < s) : c'.versionAt d = c.versionAt d := by
  obtain ⟨later, hlater⟩ := h.superseded
  have hfind := find?_outlasts_of_lt htime hs hd
  rw [versionAt, ← hlater, List.find?_append, hfind]
  rfl

end Calendar

/-! ## Operations on the present -/

/-- Operations that edit the current version of a calendar, or open a new one
behind it, and move no boundary. -/
def Operation.EditsPresent (id : CalendarId) : Operation → Prop
  | setParent k _ => k = id
  | edit k e => k = id ∧ e.movesBoundary = false
  | _ => False

namespace Registry

/-- Such an operation puts a calendar that goes on in place of the one it is
addressed to. -/
theorem put_of_editsPresent {r r' : Registry} {c : Calendar} (hc : c ∈ r.calendars.rows)
    {op : Operation} (hop : op.EditsPresent c.id) (h : r.perform op = .ok r') :
    ∃ c', c.Extends c' ∧ r' = r.put c' := by
  cases op with
  | setParent k parent =>
      obtain ⟨x, hx, hid, -, rfl⟩ := of_setParent h
      obtain rfl : x = c := eq_of_id_eq hx hc (hid.trans hop)
      exact ⟨_, x.extends_setParent parent, rfl⟩
  | edit k e =>
      obtain ⟨hk, he⟩ := hop
      obtain ⟨x, hx, hid, c', hc', rfl⟩ := of_edit h
      obtain rfl : x = c := eq_of_id_eq hx hc (hid.trans hk)
      exact ⟨c', Calendar.Edit.extends_of_run he hc', rfl⟩
  | _ => exact hop.elim

/-- Putting a calendar that goes on in place of one changes no answer for the
dates before its current version. -/
theorem resolve_put {r : Registry} (h : r.WellFormed) {c c' : Calendar}
    (hc : c ∈ r.calendars.rows) (hext : c.Extends c') (h' : (r.put c').WellFormed) {s d : Date}
    (hs : c.current.validFrom = some s) (hd : d < s) (id : CalendarId) :
    (r.put c').resolve id d = r.resolve id d := by
  have hversion : c'.versionAt d = c.versionAt d := hext.versionAt_eq (h.chained c hc) hs hd
  have hsame : (r.put c').versionsAlong (·.versionAt d) id = r.versionsAlong (·.versionAt d) id := by
    refine versionsAlong_congr h h' (fun c => c.versionAt_mem_versions d)
      (fun c => c.versionAt_mem_versions d) id ?_
    intro k _ v
    constructor
    · rintro ⟨x, hx, rfl, rfl⟩
      rcases mem_put.mp hx with rfl | ⟨hx, -⟩
      · exact ⟨c, hc, hext.id_eq.symm, hversion.symm⟩
      · exact ⟨x, hx, rfl, rfl⟩
    · rintro ⟨x, hx, rfl, rfl⟩
      by_cases hxc : x.id = c.id
      · obtain rfl : x = c := eq_of_id_eq hx hc hxc
        exact ⟨c', mem_put.mpr (.inl rfl), hext.id_eq, hversion⟩
      · exact ⟨x, mem_put.mpr (.inr ⟨hx, hext.id_eq.symm ▸ hxc⟩), rfl, rfl⟩
  rw [resolve, resolve, hsame]

/-- No run of such operations changes an answer for a date before the version
that was current at its beginning. -/
theorem resolve_after {r : Registry} (h : r.Reachable) {c : Calendar}
    (hc : c ∈ r.calendars.rows) {s d : Date} (hs : c.current.validFrom = some s) (hd : d < s)
    {ops : List Operation} (hops : ∀ op ∈ ops, op.EditsPresent c.id) (id : CalendarId) :
    (r.after ops).resolve id d = r.resolve id d := by
  induction ops generalizing r c s with
  | nil => rfl
  | cons op ops ih =>
      obtain ⟨hop, hrest⟩ := List.forall_mem_cons.mp hops
      have hnext : (r.attempt op).Reachable := h.step op
      show ((r.attempt op).after ops).resolve id d = _
      rw [attempt] at hnext ⊢
      split at hnext
      next r' hperform =>
        obtain ⟨c', hext, rfl⟩ := put_of_editsPresent hc hop hperform
        obtain ⟨s', hs', hle⟩ := hext.start s hs
        rw [ih hnext (mem_put.mpr (.inl rfl)) hs' (Nat.lt_of_lt_of_le hd hle)
          (hext.id_eq.symm ▸ hrest)]
        exact resolve_put h.wellFormed hc hext hnext.wellFormed hs hd id
      · exact ih hnext hc hs hd hrest

/-- While the current version of a calendar starts on `s` or later, edits of
its rules and its parent and further new versions, any number of them, change
nothing that is answered for a date before `s`, about it or any other
calendar. -/
theorem past_frozen {r : Registry} (h : r.Reachable) {c : Calendar}
    (hc : c ∈ r.calendars.rows) {s d : Date} (hs : c.current.validFrom = some s) (hd : d < s)
    {ops : List Operation} (hops : ∀ op ∈ ops, op.EditsPresent c.id) (id : CalendarId) :
    (r.after ops).capacityAt id d = r.capacityAt id d ∧
      (r.after ops).classify id d = r.classify id d ∧
      (r.after ops).exceptionDay id d = r.exceptionDay id d := by
  simp only [capacityAt, classify, exceptionDay, resolve_after h hc hs hd hops id, and_self]

/-- Other rules, a third version and another parent for the second calendar of
`derivedHistory`. -/
def presentEdits : List Operation :=
  [.edit summerId (.setHours .monday (some 4)),
   .edit summerId (.newVersion ⟨3652500, by decide⟩), .setParent summerId none]

theorem past_frozen_derived :
    ((empty.after derivedHistory).after presentEdits).calendars.rows.map
        (fun c => (c.versions.length, c.isDerived)) = [(1, false), (3, false), (1, true)] ∧
      ∀ id, ((empty.after derivedHistory).after presentEdits).capacityAt id ⟨3652423, by decide⟩ =
        (empty.after derivedHistory).capacityAt id ⟨3652423, by decide⟩ := by
  have hsummer : ∃ c ∈ (empty.after derivedHistory).calendars.rows,
      c.id = ⟨2, by decide⟩ ∧ c.current.validFrom = some ⟨3652424, by decide⟩ := by decide +kernel
  obtain ⟨c, hc, hid, hs⟩ := hsummer
  have hops : ∀ op ∈ presentEdits, op.EditsPresent c.id := by
    rw [hid]
    simp [presentEdits, Operation.EditsPresent, Calendar.Edit.movesBoundary]
  refine ⟨by decide +kernel, fun id => ?_⟩
  exact (past_frozen (Reachable.empty.after derivedHistory) hc hs (by decide) hops id).1

end Registry

end WorkingTime
