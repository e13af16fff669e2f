/-
The ids that a run gives out.

Only a new calendar takes an id, and it takes the next one, which is past the ids of
all calendars and from then on goes up by one.  It never goes down, neither when a
calendar is removed nor when the registry is saved and loaded; so the ids that are
given out follow one another, and none is given out twice (`ids_never_reused`).  When
no id follows the next one, nothing that would take an id is carried out any more.
-/
import WorkingTime.Proofs.Registry.Frame
import WorkingTime.Proofs.Registry.Run

namespace WorkingTime

def Step.creates : Step → Bool
  | operation op => op.creates
  | reload _ => false

theorem CalendarId.next?_eq_none {id : CalendarId} (h : id.value = UInt64.size - 1) :
    id.next? = none := by
  rw [Option.eq_none_iff_forall_ne_some]
  intro next hnext
  have hvalue := next?_eq_some_iff.mp hnext
  have hlt := next.isLt
  omega

namespace Registry

/-! ## Calendars that come into existence -/

def ids (r : Registry) : List CalendarId :=
  r.calendars.rows.map (·.id)

/-- The ids of the calendars that `r'` has and `r` has not. -/
def newIds (r r' : Registry) : List CalendarId :=
  r'.ids.filter (· ∉ r.ids)

/-- The ids of the calendars that come into existence in a run, in this order. -/
def issued (r : Registry) : List Step → List CalendarId
  | [] => []
  | s :: steps => r.newIds (r.step s) ++ (r.step s).issued steps

variable {r r' : Registry} {id : CalendarId}

theorem mem_ids : id ∈ r.ids ↔ ∃ c ∈ r.calendars.rows, c.id = id :=
  List.mem_map

theorem mem_newIds : id ∈ r.newIds r' ↔ id ∈ r'.ids ∧ id ∉ r.ids := by
  simp [newIds]

theorem nodup_ids (r : Registry) : r.ids.Nodup :=
  nodup_map_id r

theorem target_mem_of_perform {op : Operation} (hop : op.creates = false)
    (hid : op.target r = some id) (h : r.perform op = .ok r') : id ∈ r.ids := by
  cases op with
  | create _ | derive _ _ | copy _ _ => cases hop
  | rename k name =>
      cases hid
      obtain ⟨c, _, hc, hk, -⟩ := of_rename h
      exact mem_ids.mpr ⟨c, hc, hk⟩
  | remove k =>
      cases hid
      obtain ⟨⟨c, _⟩, hr, rfl⟩ := Answer.map_eq_ok_iff.mp h
      obtain ⟨hc, hk, -⟩ := of_remove hr
      exact mem_ids.mpr ⟨c, hc, hk⟩
  | setParent k parent =>
      cases hid
      obtain ⟨c, hc, hk, -⟩ := of_setParent h
      exact mem_ids.mpr ⟨c, hc, hk⟩
  | edit k e =>
      cases hid
      obtain ⟨c, hc, hk, -⟩ := of_edit h
      exact mem_ids.mpr ⟨c, hc, hk⟩
  | apply _ | applyAll _ => cases hid

/-- A success makes a calendar under the next id, or none. -/
theorem newIds_of_perform (hr : r.WellFormed) {op : Operation} (hid : op.target r = some id)
    (h : r.perform op = .ok r') : r.newIds r' = if op.creates then [r.nextId] else [] := by
  have hothers : ∀ k ∈ r.newIds r', k = id := by
    intro k hk
    obtain ⟨hin, hout⟩ := mem_newIds.mp hk
    obtain ⟨c, hc, rfl⟩ := mem_ids.mp hin
    by_contra hne
    exact hout (mem_ids.mpr ⟨c, ((frame_of_perform h hid).others c hne).mp hc, rfl⟩)
  cases hop : op.creates with
  | false =>
      refine List.eq_nil_iff_forall_not_mem.mpr ?_
      intro k hk
      obtain rfl := hothers k hk
      exact (mem_newIds.mp hk).2 (target_mem_of_perform hop hid h)
  | true =>
      obtain ⟨_, _, _, hadd⟩ := add_of_perform hop h
      obtain ⟨-, hmade⟩ := frame_of_add hadd
      obtain rfl : r.nextId = id := Option.some.inj ((op.target_of_creates hop r).symm.trans hid)
      have hfree : r.nextId ∉ r.ids := by
        intro hin
        obtain ⟨c, hc, hnext⟩ := mem_ids.mp hin
        exact hr.ne_nextId hc hnext
      have hnew : r.nextId ∈ r.newIds r' := mem_newIds.mpr ⟨mem_ids.mpr hmade, hfree⟩
      refine List.perm_singleton.mp ?_
      refine (List.perm_ext_iff_of_nodup ((nodup_ids r').filter _) (List.nodup_singleton _)).mpr ?_
      intro k
      rw [List.mem_singleton]
      exact ⟨hothers k, fun hk => hk ▸ hnew⟩

theorem newIds_step (h : r.Reachable) {s : Step} (hs : r.Smooth [s]) :
    r.newIds (r.step s) = (if s.creates then [r.nextId] else []) ∧
      (r.step s).nextId.value = r.nextId.value + s.creates.toNat := by
  cases s with
  | reload pretty =>
      rw [step_reload h]
      refine ⟨List.eq_nil_iff_forall_not_mem.mpr ?_, rfl⟩
      intro k hk
      exact (mem_newIds.mp hk).2 (mem_newIds.mp hk).1
  | operation op =>
      obtain ⟨id, r', hid, hperform, -⟩ := hs
      rw [step_operation hperform]
      exact ⟨newIds_of_perform h.wellFormed hid hperform, (frame_of_perform hperform hid).nextId⟩

theorem eq_nextId_of_mem_newIds (h : r.Reachable) {s : Step} (hs : r.Smooth [s])
    (hid : id ∈ r.newIds (r.step s)) : id = r.nextId := by
  rw [(newIds_step h hs).1] at hid
  split at hid
  · exact List.mem_singleton.mp hid
  · cases hid

/-- A run gives out the ids from the next one on, one for each calendar that it
makes. -/
theorem issued_of_smooth {steps : List Step} (h : r.Reachable) (hsteps : r.Smooth steps) :
    (r.issued steps).map (·.value) = List.range' r.nextId.value (steps.countP (·.creates)) ∧
      (r.run steps).nextId.value = r.nextId.value + steps.countP (·.creates) := by
  induction steps generalizing r with
  | nil => exact ⟨rfl, rfl⟩
  | cons s steps ih =>
      obtain ⟨hs, hrest⟩ := smooth_cons.mp hsteps
      obtain ⟨hnew, hnext⟩ := newIds_step h hs
      obtain ⟨hissued, hlast⟩ := ih (h.afterStep s) hrest
      rw [issued, List.map_append, hissued, hnew, run, List.foldl_cons, ← run, hlast, hnext,
        countP_cons_toNat, Nat.add_assoc, Nat.add_comm s.creates.toNat]
      refine ⟨?_, rfl⟩
      cases s.creates with
      | false => rfl
      | true => exact List.range'_succ.symm

theorem lt_nextId_of_earlier {p q : List Step} (h : r.Reachable) (hp : r.Smooth p) (hqp : q <+: p)
    (hid : id ∈ (r.run q).ids) : id.value < (r.run p).nextId.value := by
  obtain ⟨rest, rfl⟩ := hqp
  obtain ⟨c, hc, rfl⟩ := mem_ids.mp hid
  have hfresh := (h.run q).wellFormed.fresh c hc
  have hlater := (issued_of_smooth (h.run q) (smooth_append.mp hp).2).2
  rw [run_append]
  omega

/-- Loading finds a free id past those of all calendars, and no further than the
next one. -/
theorem exists_free_of_wellFormed (h : r.WellFormed) (hpositive : 0 < r.nextId.value) :
    ∃ free, r.highestId.next? = some free ∧ free.value ≤ r.nextId.value := by
  have hlt : r.highestId.value < r.nextId.value := highestId_lt_iff.mpr ⟨hpositive, h.fresh⟩
  refine ⟨⟨r.highestId.value + 1, Nat.lt_of_le_of_lt hlt r.nextId.isLt⟩, ?_, hlt⟩
  exact CalendarId.next?_eq_some_iff.mpr rfl

/-! ## When no id is left -/

theorem perform_nextId {op : Operation} (hop : op.creates = false) (hid : op.target r = some id)
    (next : CalendarId) :
    ({ r with nextId := next } : Registry).perform op =
      (fun r' : Registry => { r' with nextId := next }) <$> r.perform op := by
  cases op with
  | create _ | derive _ _ | copy _ _ => cases hop
  | rename k name =>
      simp only [perform, rename, map_bind, map_pure, Answer.throw_bind, apply_ite]
      rfl
  | remove k =>
      have hdependant : ({ r with nextId := next } : Registry).dependant? k = r.dependant? k := rfl
      simp only [perform, remove, map_bind, Functor.map_map, hdependant]
      refine bind_congr ?_
      intro c
      cases r.dependant? k <;> rfl
  | setParent k parent =>
      have hreaches : ∀ a b, ({ r with nextId := next } : Registry).reaches a b = r.reaches a b := by
        intro a b
        rw [Bool.eq_iff_iff, reaches_iff, reaches_iff]
        rfl
      cases parent with
      | none =>
          simp only [perform, setParent, map_bind, map_pure]
          rfl
      | some p =>
          simp only [perform, setParent, map_bind, map_pure, hreaches, Answer.throw_bind, apply_ite]
          rfl
  | edit k e =>
      simp only [perform, edit, map_bind, map_pure]
      rfl
  | apply _ | applyAll _ => cases hid

theorem perform_applyAll_cons (command : Command) (rest : List Command) :
    r.perform (.applyAll (command :: rest)) =
      r.perform (.apply command) >>= fun r₁ => r₁.perform (.applyAll rest) := by
  simp only [perform, applyAll, map_bind, bind_map_left, map_pure]
  refine bind_congr ?_
  intro x
  cases x.1.applyAll rest <;> rfl

section Exhausted

variable (hnone : r.nextId.next? = none) {next : CalendarId}
include hnone

theorem add_of_exhausted {text : String} {v : Version} {made : CalendarId × Registry}
    (h : ({ r with nextId := next } : Registry).add text v = .ok made) :
    r.add text v = .error (.noRoomAfter r.nextId) := by
  obtain ⟨name, hname, -⟩ := Answer.bind_eq_ok_iff.mp h
  change r.availableName text = .ok name at hname
  rw [add, hname, Answer.ok_bind, allocateId, hnone]
  rfl

/-- Without an id left, an operation that would succeed with one fails for want of
it, or takes none. -/
theorem perform_of_exhausted {op : Operation} (hid : op.target r = some id)
    (h : ({ r with nextId := next } : Registry).perform op = .ok r') :
    r.perform op = .error (.noRoomAfter r.nextId) ∨
      (r'.nextId = next ∧ r.perform op = .ok { r' with nextId := r.nextId }) := by
  cases hop : op.creates with
  | false =>
      -- nothing is made, so the next id is only carried along
      rw [perform_nextId hop hid] at h
      obtain ⟨made, hmade, rfl⟩ := Answer.map_eq_ok_iff.mp h
      have htaken := (frame_of_perform hmade hid).nextId
      rw [hop] at htaken
      have hsame : made.nextId = r.nextId := CalendarId.ext htaken
      refine .inr ⟨rfl, ?_⟩
      rw [← hsame]
      exact hmade
  | true =>
      refine .inl ?_
      cases op with
      | create name =>
          obtain ⟨made, hmade, rfl⟩ := Answer.map_eq_ok_iff.mp h
          rw [perform, create, add_of_exhausted hnone hmade]
          rfl
      | derive parent name =>
          obtain ⟨made, hmade, rfl⟩ := Answer.map_eq_ok_iff.mp h
          obtain ⟨_, hparent, hadd⟩ := Answer.bind_eq_ok_iff.mp hmade
          change discard (r.get parent) = .ok _ at hparent
          rw [perform, derive, hparent, Answer.ok_bind, add_of_exhausted hnone hadd]
          rfl
      | copy source name =>
          obtain ⟨made, hmade, rfl⟩ := Answer.map_eq_ok_iff.mp h
          obtain ⟨c, hsource, hadd⟩ := Answer.bind_eq_ok_iff.mp hmade
          change r.get source = .ok c at hsource
          rw [perform, copy, hsource, Answer.ok_bind, add_of_exhausted hnone hadd]
          rfl
      | _ => cases hop

theorem apply_of_exhausted {command : Command}
    (h : ({ r with nextId := next } : Registry).perform (.apply command) = .ok r') :
    r.perform (.apply command) = .error (.noRoomAfter r.nextId) ∨
      (r'.nextId = next ∧ r.perform (.apply command) = .ok { r' with nextId := r.nextId }) := by
  have hoperation : command.operation ({ r with nextId := next } : Registry) =
      command.operation r := by
    cases command <;> rfl
  rw [perform, apply_eq_perform, hoperation] at h
  obtain ⟨op, hop, hperform⟩ := Answer.bind_eq_ok_iff.mp h
  obtain ⟨⟨id, hid⟩, -⟩ := target_of_operation hop
  rw [perform, apply_eq_perform, hop, Answer.ok_bind]
  exact perform_of_exhausted hnone hid hperform

theorem applyAll_of_exhausted {commands : List Command}
    (h : ({ r with nextId := next } : Registry).perform (.applyAll commands) = .ok r') :
    r.perform (.applyAll commands) = .error (.noRoomAfter r.nextId) ∨
      (r'.nextId = next ∧
        r.perform (.applyAll commands) = .ok { r' with nextId := r.nextId }) := by
  induction commands generalizing r with
  | nil =>
      cases h
      exact .inr ⟨rfl, rfl⟩
  | cons command rest ih =>
      rw [perform_applyAll_cons] at h ⊢
      obtain ⟨r₁, hfirst, hrest⟩ := Answer.bind_eq_ok_iff.mp h
      rcases apply_of_exhausted hnone hfirst with hfull | ⟨rfl, hdone⟩
      · rw [hfull]
        exact .inl rfl
      · rw [hdone]
        exact ih (r := { r₁ with nextId := r.nextId }) hnone hrest

/-- What would give out an id is refused when there is none left, and changes
nothing. -/
theorem refused_of_exhausted {op : Operation}
    (h : ({ r with nextId := next } : Registry).perform op = .ok r') (htaken : r'.nextId ≠ next) :
    op.program.run r = .error (.noRoomAfter r.nextId) r := by
  have hrefused : r.perform op = .error (.noRoomAfter r.nextId) := by
    cases op with
    | apply command => exact (apply_of_exhausted hnone h).resolve_right fun hno => htaken hno.1
    | applyAll commands =>
        exact (applyAll_of_exhausted hnone h).resolve_right fun hno => htaken hno.1
    | _ => exact (perform_of_exhausted hnone rfl h).resolve_right fun hno => htaken hno.1
  rw [op.run_program, hrefused]
  rfl

end Exhausted

/-! ## No id twice -/

/-- Whatever a run does, with saving and loading anywhere in it, a calendar that comes
into existence has an id past those of all calendars that there were in any earlier
state, the ones removed since included.  The ids given out follow one another, one
for each calendar made, and neither the next id nor the search for a free one on
loading goes beyond 64 bits.  In a state whose next id is the largest, what would
give out an id if there were another fails for want of it and changes nothing. -/
theorem ids_never_reused (h : r.Reachable) (steps : List Step) :
    (∀ p s, p ++ [s] <+: r.spelledOut steps →
      ∀ id ∈ (r.run p).newIds (r.run (p ++ [s])),
        ∀ q, q <+: p → ∀ earlier ∈ (r.run q).ids, earlier.value < id.value) ∧
    (r.issued (r.spelledOut steps)).map (·.value) =
      List.range' r.nextId.value ((r.spelledOut steps).countP (·.creates)) ∧
    ∀ p, p <+: r.spelledOut steps →
      (r.run p).nextId.value = r.nextId.value + p.countP (·.creates) ∧
      (∃ free, (r.run p).highestId.next? = some free ∧ free.value ≤ (r.run p).nextId.value) ∧
      ((r.run p).nextId.value = UInt64.size - 1 →
        ∀ op next r', ({ r.run p with nextId := next } : Registry).perform op = .ok r' →
          r'.nextId ≠ next →
            op.program.run (r.run p) = .error (.noRoomAfter (r.run p).nextId) (r.run p)) := by
  have hsmooth : ∀ p, p <+: r.spelledOut steps → r.Smooth p := by
    rintro p ⟨rest, hrest⟩
    exact (smooth_append.mp (hrest ▸ (run_spelledOut r steps).1)).1
  refine ⟨?_, (issued_of_smooth h (hsmooth _ (List.prefix_refl _))).1, ?_⟩
  · intro p s hps id hid q hqp earlier hearlier
    have hp := hsmooth p ((List.prefix_append p [s]).trans hps)
    rw [run_append] at hid
    rw [eq_nextId_of_mem_newIds (h.run p) (smooth_after hps) hid]
    exact lt_nextId_of_earlier h hp hqp hearlier
  · intro p hp
    refine ⟨(issued_of_smooth h (hsmooth p hp)).2, ?_, ?_⟩
    · exact exists_free_of_wellFormed (h.run p).wellFormed (h.run p).positive
    · intro hlast op next r' hperform htaken
      exact refused_of_exhausted (CalendarId.next?_eq_none hlast) hperform htaken

/-- Saving and loading, a batch that makes a calendar and is refused, and one that
makes two. -/
def issuingSteps : List Step :=
  [.reload true,
   .operation (.applyAll [.createCalendar "Spring", .removeCalendar "Autumn"]),
   .operation (.applyAll [.createCalendar "Autumn", .deriveCalendar "Autumn" "Fall"])]

/-- The empty registry with the largest next id. -/
def exhaustedRegistry : Registry :=
  ⟨.empty, ⟨UInt64.size - 1, by decide⟩⟩

theorem reachable_exhaustedRegistry : exhaustedRegistry.Reachable :=
  @Reachable.assembled [] exhaustedRegistry.nextId _ (by simp) (by decide +kernel)

/-- The id of the calendar that is removed before is not given out again. -/
theorem ids_never_reused_derived :
    ((empty.after derivedHistory).issued ((empty.after derivedHistory).spelledOut
        (.operation (.remove ⟨3, by decide⟩) :: issuingSteps))).map (·.value) = [4, 5] ∧
      (Operation.create "Standard").program.run exhaustedRegistry =
        .error (.noRoomAfter exhaustedRegistry.nextId) exhaustedRegistry := by
  have hreach := Reachable.empty.after derivedHistory
  constructor
  · rw [(ids_never_reused hreach _).2.1]
    have hspelled := spelledOut_append (empty.after derivedHistory)
      [.operation (.remove ⟨3, by decide⟩)] issuingSteps
    rw [List.singleton_append] at hspelled
    rw [hspelled, issuingSteps, spelledOut, step_reload (hreach.run _)]
    decide +kernel
  · have hmade : (empty.perform (.create "Standard")).toOption.any
        (fun r' => r'.nextId != empty.nextId) = true := by decide +kernel
    obtain ⟨r', hperform, htaken⟩ := Answer.exists_ok_of_any hmade
    exact (ids_never_reused reachable_exhaustedRegistry []).2.2 [] (List.prefix_refl _) |>.2.2 rfl
      (.create "Standard") empty.nextId r' hperform (bne_iff_ne.mp htaken)

end Registry

end WorkingTime
