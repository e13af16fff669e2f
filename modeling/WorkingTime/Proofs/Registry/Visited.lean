/-
The calendars that are asked for a date, one after the other.

The walk that decides a date goes from a calendar to the parent of the version in
effect while that version decides nothing (`Visits`).  The decision is made by the
last calendar of the walk alone, and the others pass it down; so two registries
decide alike for a calendar when they have the same at the calendars it visits
(`resolve_congr`), and a calendar that is put in place of one is noticed only by
those that visit it (`resolve_put_of_not_visits`), which pass down its decision
(`resolve_of_visits`).
-/
import WorkingTime.Proofs.Capacity

namespace WorkingTime

open Relation (ReflTransGen TransGen)

namespace Registry

variable {r r' : Registry} {d : Date} {q k : CalendarId} {c c' : Calendar}

/-! ## Answers for one date -/

/-- What a calendar answers for a date: the hours, the kind and the exception. -/
structure AnswersOn (r : Registry) (q : CalendarId) (d : Date) (hours : Nat) (kind : DayType)
    (exception : Option ExceptionDay) : Prop where
  capacityAt : r.capacityAt q d = .ok hours
  classify : r.classify q d = .ok kind
  exceptionDay : r.exceptionDay q d = .ok exception

/-- What is answered about a calendar for a date is the same in two registries. -/
structure SameOn (r r' : Registry) (q : CalendarId) (d : Date) : Prop where
  capacityAt : r'.capacityAt q d = r.capacityAt q d
  classify : r'.classify q d = r.classify q d
  exceptionDay : r'.exceptionDay q d = r.exceptionDay q d

theorem answersOn_of_resolve {x : Resolution} (h : r.resolve q d = .ok x) :
    r.AnswersOn q d x.hours x.dayType x.exception? where
  capacityAt := congrArg (Resolution.hours <$> ·) h
  classify := congrArg (Resolution.dayType <$> ·) h
  exceptionDay := congrArg (Resolution.exception? <$> ·) h

theorem sameOn_of_resolve (h : r'.resolve q d = r.resolve q d) : r.SameOn r' q d where
  capacityAt := congrArg (Resolution.hours <$> ·) h
  classify := congrArg (Resolution.dayType <$> ·) h
  exceptionDay := congrArg (Resolution.exception? <$> ·) h

/-! ## One calendar of a walk -/

/-- What the version in effect decides by itself, and whom it leaves the date to
otherwise. -/
def DecidesOn (r : Registry) (d : Date) (k : CalendarId) (decision : Option Resolution)
    (parent : Option CalendarId) : Prop :=
  ∃ c ∈ r.calendars.rows, c.id = k ∧ (c.versionAt d).decision? d = decision ∧
    (c.versionAt d).parent = parent

theorem resolve_of_missing (h : ∀ c ∈ r.calendars.rows, c.id ≠ q) (d : Date) :
    r.resolve q d = .error (.unknownId q) := by
  rw [resolve, versionsAlong_of_missing h]
  rfl

theorem resolve_of_decided (h : r.WellFormed) {x : Resolution} {parent : Option CalendarId}
    (hk : r.DecidesOn d k (some x) parent) : r.resolve k d = .ok x := by
  obtain ⟨c, hc, rfl, hx, -⟩ := hk
  obtain ⟨rest, hrest, -, -⟩ := versionsAlong_cons h (fun c => c.versionAt_mem_versions d) hc
  rw [resolve, hrest]
  show Except.ok (Version.resolve d (c.versionAt d :: rest)) = .ok x
  rw [Version.resolve, hx, Option.getD_some]

theorem resolve_of_orphan (h : r.WellFormed) (hk : r.DecidesOn d k none none) :
    r.resolve k d = .ok .undecided := by
  obtain ⟨c, hc, rfl, hx, hp⟩ := hk
  obtain ⟨rest, hrest, hend, -⟩ := versionsAlong_cons h (fun c => c.versionAt_mem_versions d) hc
  obtain rfl := hend hp
  rw [resolve, hrest]
  show Except.ok (Version.resolve d [c.versionAt d]) = .ok .undecided
  rw [Version.resolve, hx]
  rfl

theorem resolve_of_left (h : r.WellFormed) {p : CalendarId}
    (hk : r.DecidesOn d k none (some p)) :
    r.resolve k d = Resolution.passedDown <$> r.resolve p d := by
  obtain ⟨c, hc, rfl, hx, hp⟩ := hk
  obtain ⟨rest, hrest, -, hparent⟩ :=
    versionsAlong_cons h (fun c => c.versionAt_mem_versions d) hc
  rw [resolve, resolve, hrest, hparent p hp]
  show Except.ok (Version.resolve d (c.versionAt d :: rest)) =
    .ok (Version.resolve d rest).passedDown
  rw [Version.resolve, hx, Option.getD_none]

/-! ## Walks -/

/-- The walk that decides a date for `q` comes to `k`: that many rounds of its loop
go on, and the last of them to `k`. -/
def Visits (r : Registry) (q : CalendarId) (d : Date) : CalendarId → Prop :=
  ReflTransGen (fun a b => r.round (Visit.decide q d) () a = .inr ((), b)) q

theorem round_decide_eq_inr_iff {origin a b : CalendarId} :
    r.round (Visit.decide origin d) () a = .inr ((), b) ↔ r.DecidesOn d a none (some b) := by
  rw [round]
  constructor
  · intro hround
    split at hround
    · cases hround
    next c hc =>
      obtain ⟨hmem, rfl⟩ := get_eq_ok_iff.mp hc
      refine ⟨c, hmem, rfl, ?_⟩
      rw [Visit.decide] at hround
      rw [Version.decision?]
      cases he : (c.versionAt d).exceptionOn? d with
      | some e => simp [he] at hround
      | none =>
          cases hw : (c.versionAt d).week.get d.weekday with
          | fixed hours => simp [he, hw] at hround
          | inherited =>
              cases hp : (c.versionAt d).parent with
              | none => simp [he, hw, hp] at hround
              | some p => simpa [he, hw, hp, DayRule.hours?] using hround
  · rintro ⟨c, hc, rfl, hx, hp⟩
    rw [get_id hc]
    rw [Version.decision?] at hx
    cases he : (c.versionAt d).exceptionOn? d with
    | some e => simp [he] at hx
    | none =>
        cases hw : (c.versionAt d).week.get d.weekday with
        | fixed hours => simp [he, hw, DayRule.hours?] at hx
        | inherited => simp only [Visit.decide, he, hw, hp]

theorem visits_iff :
    r.Visits q d k ↔ ReflTransGen (fun a b => r.DecidesOn d a none (some b)) q k := by
  simp only [Visits, round_decide_eq_inr_iff]

theorem hasParent_of_decidesOn {a b : CalendarId} {x : Option Resolution}
    (h : r.DecidesOn d a x (some b)) : r.HasParent a b := by
  obtain ⟨c, hc, rfl, -, hp⟩ := h
  exact hasParent_of_pick (fun c => c.versionAt_mem_versions d) hc hp

theorem not_visits_of_parent (h : r.WellFormed) {a b : CalendarId} (hab : r.HasParent a b) :
    ¬ r.Visits b d a := by
  intro hba
  have hpath : ReflTransGen r.HasParent b a :=
    ReflTransGen.mono (fun _ _ => hasParent_of_decidesOn) b a (visits_iff.mp hba)
  exact h.acyclic a (.head' hab hpath)

/-- Whoever visits a calendar has the decision of that calendar, from below. -/
theorem resolve_of_visits (h : r.WellFormed) (hvisits : r.Visits q d k) (hne : q ≠ k) :
    r.resolve q d = Resolution.passedDown <$> r.resolve k d := by
  obtain rfl | ⟨b, hqb, hbk⟩ := ReflTransGen.cases_head (visits_iff.mp hvisits)
  · exact absurd rfl hne
  · rw [resolve_of_left h hqb]
    clear hqb hvisits hne
    induction hbk using ReflTransGen.head_induction_on with
    | refl => rfl
    | head hstep _ ih =>
        rw [resolve_of_left h hstep, Functor.map_map, ← ih]
        simp only [Resolution.passedDown_passedDown]

/-- Two registries decide alike for a calendar when the calendars that it visits
decide alike, and leave the date to the same parents. -/
theorem resolve_congr (h : r.WellFormed) (h' : r'.WellFormed) (q : CalendarId)
    (hsame : ∀ k, r.Visits q d k → ∀ x p, r'.DecidesOn d k x p ↔ r.DecidesOn d k x p) :
    r'.resolve q d = r.resolve q d := by
  simp only [visits_iff] at hsame
  induction q using h.parent_induction with
  | hstep q ih =>
      have hfirst := hsame q .refl
      by_cases hq : ∃ c ∈ r.calendars.rows, c.id = q
      · obtain ⟨c, hc, rfl⟩ := hq
        have hdecides : r.DecidesOn d c.id ((c.versionAt d).decision? d) (c.versionAt d).parent :=
          ⟨c, hc, rfl, rfl, rfl⟩
        have hdecides' := (hfirst _ _).mpr hdecides
        cases hx : (c.versionAt d).decision? d with
        | some x =>
            rw [hx] at hdecides hdecides'
            rw [resolve_of_decided h hdecides, resolve_of_decided h' hdecides']
        | none =>
            cases hp : (c.versionAt d).parent with
            | none =>
                rw [hx, hp] at hdecides hdecides'
                rw [resolve_of_orphan h hdecides, resolve_of_orphan h' hdecides']
            | some p =>
                rw [hx, hp] at hdecides hdecides'
                have hparent : r'.resolve p d = r.resolve p d := by
                  refine ih p (hasParent_of_decidesOn hdecides) ?_
                  intro k hk
                  exact hsame k (hk.head hdecides)
                rw [resolve_of_left h hdecides, resolve_of_left h' hdecides', hparent]
      · have hmissing : ∀ c ∈ r.calendars.rows, c.id ≠ q := fun c hc heq => hq ⟨c, hc, heq⟩
        -- what is missing here decides nothing, and so is missing on the other side
        have hmissing' : ∀ c ∈ r'.calendars.rows, c.id ≠ q := by
          rintro c hc rfl
          obtain ⟨k, hk, hid, -⟩ := (hfirst _ _).mp ⟨c, hc, rfl, rfl, rfl⟩
          exact hmissing k hk hid
        rw [resolve_of_missing hmissing, resolve_of_missing hmissing']

/-! ## A calendar put in place of another -/

theorem mem_put_self : c ∈ (r.put c).calendars.rows :=
  mem_put.mpr (.inl rfl)

section Put

variable (hid : c'.id = c.id)

include hid

theorem decidesOn_put_of_ne (hk : k ≠ c.id) {x : Option Resolution} {p : Option CalendarId} :
    (r.put c').DecidesOn d k x p ↔ r.DecidesOn d k x p := by
  constructor
  · rintro ⟨a, ha, rfl, hdecides⟩
    rcases mem_put.mp ha with rfl | ⟨ha, -⟩
    · exact absurd hid hk
    · exact ⟨a, ha, rfl, hdecides⟩
  · rintro ⟨a, ha, rfl, hdecides⟩
    exact ⟨a, mem_put.mpr (.inr ⟨ha, hid ▸ hk⟩), rfl, hdecides⟩

theorem decidesOn_put (d : Date) :
    (r.put c').DecidesOn d c.id ((c'.versionAt d).decision? d) (c'.versionAt d).parent :=
  ⟨c', mem_put_self, hid, rfl, rfl⟩

variable (h : r.WellFormed) (h' : (r.put c').WellFormed)

include h

theorem visits_put (hq : r.Visits q d c.id) : (r.put c').Visits q d c.id := by
  rw [visits_iff] at hq ⊢
  induction hq using ReflTransGen.head_induction_on with
  | refl => exact .refl
  | @head a b hab hbc ih =>
      have hne : a ≠ c.id := by
        rintro rfl
        exact not_visits_of_parent h (hasParent_of_decidesOn hab) (visits_iff.mpr hbc)
      exact .head ((decidesOn_put_of_ne hid hne).mpr hab) ih

include h'

theorem resolve_put_of_not_visits (hq : ¬ r.Visits q d c.id) :
    (r.put c').resolve q d = r.resolve q d := by
  refine resolve_congr h h' q ?_
  intro k hk x p
  refine decidesOn_put_of_ne hid ?_
  rintro rfl
  exact hq hk

/-- A calendar that decides a date as the one before it did is noticed by nobody. -/
theorem resolve_put_of_decision (hc : c ∈ r.calendars.rows)
    (hdecision : (c'.versionAt d).decision? d = (c.versionAt d).decision? d)
    (hparent : (c'.versionAt d).parent = (c.versionAt d).parent) (q : CalendarId) :
    (r.put c').resolve q d = r.resolve q d := by
  refine resolve_congr h h' q ?_
  intro k _ x p
  by_cases hk : k = c.id
  · subst hk
    constructor
    · rintro ⟨a, ha, haid, rfl, rfl⟩
      obtain rfl : a = c' := eq_of_id_eq ha mem_put_self (haid.trans hid.symm)
      exact ⟨c, hc, rfl, hdecision.symm, hparent.symm⟩
    · rintro ⟨a, ha, haid, rfl, rfl⟩
      obtain rfl : a = c := eq_of_id_eq ha hc haid
      exact ⟨c', mem_put_self, hid, hdecision, hparent⟩
  · exact decidesOn_put_of_ne hid hk

end Put

end Registry

end WorkingTime
