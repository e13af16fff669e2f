/-
Operations that change no answer.

There are two reasons for it.  An operation writes to one calendar, and what is
answered for another one is read off its lineage, so only the calendars below
the one that is written to can notice (`operation_affects_descendants`).  And a
new version has the rules of the version that it closes, so that nobody can
notice it, on whichever side of its first day (`newVersion_keeps_answers`).
-/
import WorkingTime.Proofs.Registry.Agreement
import WorkingTime.Proofs.Registry.Frame

namespace WorkingTime

open Relation (ReflTransGen)

namespace Registry

variable {r r' : Registry}

/-! ## Calendars that do not lead to the target -/

theorem mem_of_path {P : CalendarId → Prop}
    (hparents : ∀ c ∈ r.calendars.rows, P c.id → ∀ p ∈ c.parents, P p) {a b : CalendarId}
    (ha : P a) (hpath : ReflTransGen r.HasParent a b) : P b := by
  induction hpath with
  | refl => exact ha
  | tail _ hedge ih =>
      obtain ⟨c, hc, rfl, hp⟩ := hedge
      exact hparents c hc ih _ hp

theorem not_path_nextId (h : r.WellFormed) {q : Calendar} (hq : q ∈ r.calendars.rows) :
    ¬ ReflTransGen r.HasParent q.id r.nextId := by
  intro hpath
  have hthere : ∃ c ∈ r.calendars.rows, c.id = r.nextId :=
    mem_of_path (P := fun id => ∃ c ∈ r.calendars.rows, c.id = id)
      (fun c hc _ p hp => h.closed c.id p ⟨c, hc, rfl, hp⟩) ⟨q, hq, rfl⟩ hpath
  obtain ⟨c, hc, hid⟩ := hthere
  exact h.ne_nextId hc hid

theorem sameAnswers_of_frame (h : r.WellFormed) (h' : r'.WellFormed) {id : CalendarId}
    {taken : Nat} (hframe : Frame id taken r r') {q : Calendar} (hq : q ∈ r.calendars.rows)
    (hpath : ¬ ReflTransGen r.HasParent q.id id) : SameAnswers r q.id r' q.id := by
  refine sameAnswers_of_counterparts (f := fun k => k) h h' hq ?_
  intro c hc hqc
  have hne : c.id ≠ id := by
    rintro rfl
    exact hpath hqc
  exact ⟨c, (hframe.others c hne).mpr hc, c.counterpart_self⟩

/-- An operation that comes out well changes no answer about a calendar that is
not its target and does not lead to it through parents of any versions.  A new
calendar is the target of the operation that makes it, and nothing leads to it. -/
theorem operation_affects_descendants (h : r.Reachable) {op : Operation} {id : CalendarId}
    (hid : op.target r = some id) (hop : r.perform op = .ok r') {q : Calendar}
    (hq : q ∈ r.calendars.rows)
    (hpath : op.creates = false → ¬ ReflTransGen r.HasParent q.id id) :
    SameAnswers r q.id r' q.id := by
  have hwf := h.wellFormed
  refine sameAnswers_of_frame hwf (hwf.perform hop) (frame_of_perform hop hid) hq ?_
  cases hcreates : op.creates with
  | false => exact hpath hcreates
  | true =>
      rw [op.target_of_creates hcreates r] at hid
      obtain rfl : r.nextId = id := Option.some.inj hid
      exact not_path_nextId hwf hq

/-- The second calendar of `derivedHistory` loses its parent, and the third one,
which has the same parent, does not notice. -/
theorem operation_affects_descendants_derived :
    ∃ r', (empty.after derivedHistory).perform (.setParent ⟨2, by decide⟩ none) = .ok r' ∧
      r'.calendars.rows.map (·.isDerived) = [false, false, true] ∧
      SameAnswers (empty.after derivedHistory) ⟨3, by decide⟩ r' ⟨3, by decide⟩ := by
  obtain ⟨r', hperform, hparents⟩ := Answer.exists_ok_of_any
    (x := (empty.after derivedHistory).perform (.setParent ⟨2, by decide⟩ none))
    (p := fun r' => r'.calendars.rows.map (·.isDerived) == [false, false, true])
    (by decide +kernel)
  obtain ⟨q, hq, hid⟩ : ∃ q ∈ (empty.after derivedHistory).calendars.rows,
      q.id = ⟨3, by decide⟩ := by decide +kernel
  have hpath : ¬ ReflTransGen (empty.after derivedHistory).HasParent q.id ⟨2, by decide⟩ := by
    rw [hid]
    intro hpath
    -- from the third calendar one comes to the first and no further
    have hend := mem_of_path (P := fun id => id.value = 3 ∨ id.value = 1) (by decide +kernel)
      (by decide) hpath
    exact absurd hend (by decide)
  have hsame := operation_affects_descendants (Reachable.empty.after derivedHistory) rfl hperform
    hq fun _ => hpath
  rw [hid] at hsame
  exact ⟨r', hperform, beq_iff_eq.mp hparents, hsame⟩

/-! ## New versions -/

/-- Whether the current version is asked or the one of a date, a new version
answers as the one before it did. -/
theorem counterpart_of_newVersion {c c' : Calendar} {start : Date}
    (h : c.newVersion start = .ok c') : c.Counterpart (fun k => k) c' := by
  obtain ⟨-, rfl⟩ := Calendar.newVersion_eq_ok_iff.mp h
  have hcurrent := c.current.counterpart_self
  have hrules : ∀ v : Version, v.toRules = c.current.toRules →
      c.current.Counterpart (fun k => k) v := by
    rintro ⟨_, _, _⟩ rfl
    exact ⟨hcurrent.week, hcurrent.exceptions, hcurrent.parent⟩
  refine ⟨rfl, hrules _ rfl, ?_⟩
  intro d
  simp only [Calendar.versionAt, List.find?_append]
  cases c.superseded.find? (·.outlasts d) with
  | some v => exact v.counterpart_self
  | none =>
      rw [List.find?_singleton]
      split
      · exact hrules _ rfl
      · exact hrules _ rfl

/-- A new version opens exactly when the current one has no start or starts
before.  Then every calendar has the answers that it had, on every date, and
all that is different is that the current version ends where the new one
begins. -/
theorem newVersion_keeps_answers (h : r.Reachable) {c : Calendar} (hc : c ∈ r.calendars.rows)
    (start : Date) :
    ((∃ r', r.perform (.edit c.id (.newVersion start)) = .ok r') ↔
        ∀ first ∈ c.current.validFrom, first < start) ∧
      ∀ r', r.perform (.edit c.id (.newVersion start)) = .ok r' →
        (∀ q ∈ r.calendars.rows, SameAnswers r q.id r' q.id) ∧ Frame c.id 0 r r' ∧
        ∃ c' ∈ r'.calendars.rows, c'.id = c.id ∧ c'.name = c.name ∧
          c'.versions = c.superseded ++
            [{ c.current with expires := some start },
             { c.current with validFrom := some start, expires := none }] := by
  have hperform : ∀ r', r.perform (.edit c.id (.newVersion start)) = .ok r' ↔
      ∃ c', c.newVersion start = .ok c' ∧ r.put c' = r' := by
    intro r'
    rw [perform, edit_eq_put hc, Answer.map_eq_ok_iff]
    simp only [Answer.asRule_eq_ok_iff]
    rfl
  constructor
  · simp only [hperform, Calendar.newVersion_eq_ok_iff]
    constructor
    · rintro ⟨_, _, ⟨hlater, -⟩, -⟩
      exact hlater
    · intro hlater
      exact ⟨_, _, ⟨hlater, rfl⟩, rfl⟩
  · intro r' hr'
    have hframe : Frame c.id 0 r r' := frame_of_perform hr' rfl
    have hwf' : r'.WellFormed := h.wellFormed.perform hr'
    obtain ⟨c', hnew, rfl⟩ := (hperform r').mp hr'
    have hc' : c' ∈ (r.put c').calendars.rows := mem_put.mpr (.inl rfl)
    have hcounterpart := counterpart_of_newVersion hnew
    refine ⟨?_, hframe, c', hc', ?_⟩
    · intro q hq
      refine sameAnswers_of_counterparts (f := fun k => k) h.wellFormed hwf' hq ?_
      intro k hk _
      by_cases hkc : k.id = c.id
      · obtain rfl : k = c := eq_of_id_eq hk hc hkc
        exact ⟨c', hc', hcounterpart⟩
      · exact ⟨k, (hframe.others k hkc).mpr hk, k.counterpart_self⟩
    · obtain ⟨-, rfl⟩ := Calendar.newVersion_eq_ok_iff.mp hnew
      refine ⟨rfl, rfl, ?_⟩
      simp [Calendar.versions, Version.successor]

/-- On the first day of the current version no other one opens; one that opens on
the day after is not noticed. -/
theorem newVersion_keeps_answers_derived :
    (∀ r', (empty.after derivedHistory).perform
        (.edit ⟨2, by decide⟩ (.newVersion ⟨3652424, by decide⟩)) ≠ .ok r') ∧
      ∃ r', (empty.after derivedHistory).perform
          (.edit ⟨2, by decide⟩ (.newVersion ⟨3652425, by decide⟩)) = .ok r' ∧
        r'.calendars.rows.map (·.versions.length) = [1, 3, 1] ∧
        SameAnswers (empty.after derivedHistory) ⟨2, by decide⟩ r' ⟨2, by decide⟩ := by
  obtain ⟨c, hc, hid, hfirst⟩ : ∃ c ∈ (empty.after derivedHistory).calendars.rows,
      c.id = ⟨2, by decide⟩ ∧ c.current.validFrom = some ⟨3652424, by decide⟩ := by
    decide +kernel
  have hnew := newVersion_keeps_answers (Reachable.empty.after derivedHistory) hc
  rw [hid, hfirst] at hnew
  constructor
  · intro r' hr'
    exact absurd ((hnew ⟨3652424, by decide⟩).1.mp ⟨r', hr'⟩ _ rfl) (by decide)
  · obtain ⟨r', hr', hversions⟩ := Answer.exists_ok_of_any
      (x := (empty.after derivedHistory).perform
        (.edit ⟨2, by decide⟩ (.newVersion ⟨3652425, by decide⟩)))
      (p := fun r' => r'.calendars.rows.map (·.versions.length) == [1, 3, 1]) (by decide +kernel)
    exact ⟨r', hr', beq_iff_eq.mp hversions, hid ▸ ((hnew _).2 r' hr').1 c hc⟩

end Registry

end WorkingTime
