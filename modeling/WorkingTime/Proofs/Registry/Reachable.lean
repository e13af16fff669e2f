/-
Every registry that can be reached is well-formed, and finds its calendars and
exceptions under their own ids and dates.

The three ways to begin are an empty registry, calendars that were put together,
and a document; all of them go through the same checks.  From then on only
changes happen, and each keeps the invariant.
-/
import WorkingTime.Proofs.Registry.Assembly
import WorkingTime.Proofs.Stored.Record

namespace WorkingTime

theorem Version.exceptionOn?_eq_some_iff {v : Version} {d : Date} {e : ExceptionDay} :
    v.exceptionOn? d = some e ↔ e ∈ v.exceptions.rows ∧ e.date = d := by
  rw [exceptionOn?, Table.find?_eq_some_iff]
  exact and_congr_right fun _ => Date.ext_iff.symm

namespace Registry

/-! ## The invariant -/

theorem wellFormed_empty : empty.WellFormed where
  chained _ hc := absurd hc List.not_mem_nil
  closed := by
    rintro _ _ ⟨c, hc, -⟩
    exact absurd hc List.not_mem_nil
  acyclic := by
    intro _ hcycle
    obtain ⟨_, ⟨c, hc, -⟩, -⟩ := Relation.TransGen.head'_iff.mp hcycle
    exact absurd hc List.not_mem_nil
  fresh _ hc := absurd hc List.not_mem_nil

theorem ofCalendars_of_ofReading {value : Reading} {r : Registry} (h : ofReading value = .ok r) :
    ∃ fields, form.read value = .ok fields ∧
      ofCalendars fields.calendars fields.nextId = .ok r := by
  simp only [ofReading, Answer.bind_eq_ok_iff, Answer.mapError_eq_ok_iff] at h
  exact h

theorem wellFormed_of_ofReading {value : Reading} {r : Registry} (h : ofReading value = .ok r) :
    r.WellFormed := by
  obtain ⟨fields, hfields, hr⟩ := ofCalendars_of_ofReading h
  exact wellFormed_of_ofCalendars (divideTime_of_read hfields) hr

theorem Reachable.wellFormed {r : Registry} (h : r.Reachable) : r.WellFormed :=
  h.induction wellFormed_empty (fun _ _ _ hcs hr => wellFormed_of_ofCalendars hcs hr)
    (fun _ _ hr => wellFormed_of_ofReading hr) fun _ _ hr hchange => hr.change hchange

/-! ## Rows and their keys -/

/-- Every registry that can be reached is well-formed; it finds a calendar
under an id when it has the calendar and this is its id, and a version finds
an exception on a date when it has the exception and this is its date. -/
theorem reachable_invariant {r : Registry} (h : r.Reachable) :
    r.WellFormed ∧ (∀ id c, r.get id = .ok c ↔ c ∈ r.calendars.rows ∧ c.id = id) ∧
      ∀ c ∈ r.calendars.rows, ∀ v ∈ c.versions, ∀ d e,
        v.exceptionOn? d = some e ↔ e ∈ v.exceptions.rows ∧ e.date = d :=
  ⟨h.wellFormed, fun _ _ => get_eq_ok_iff, fun _ _ _ _ _ _ => Version.exceptionOn?_eq_some_iff⟩

/-- Two generations of calendars, and one step that is refused: the parent of
a calendar is not taken out. -/
def derivedHistory : List Operation :=
  [.create "Standard", .edit empty.nextId (.setHours .monday (some 8)),
   .derive empty.nextId "Summer",
   .edit ⟨2, by decide⟩ (.newVersion ⟨3652424, by decide⟩), .remove empty.nextId,
   .copy ⟨2, by decide⟩ "Winter"]

/-- The id of "Summer" after `derivedHistory`. -/
abbrev summerId : CalendarId := ⟨2, by decide⟩

/-- The date on which `derivedHistory` starts the second version of "Summer". -/
abbrev summerStart : Date := ⟨3652424, by decide⟩

theorem reachable_invariant_derived :
    (empty.after derivedHistory).Reachable ∧
      (empty.after derivedHistory).calendars.rows.map
          (fun c => (c.name, c.versions.length, c.parents.map (·.value))) =
        [("Standard", 1, []), ("Summer", 2, [1, 1]), ("Winter", 1, [1])] ∧
      (empty.after derivedHistory).WellFormed :=
  ⟨Reachable.empty.after _, by decide +kernel,
    (reachable_invariant (Reachable.empty.after derivedHistory)).1⟩

end Registry

end WorkingTime
