/-
Calendars under other ids.

`renumber f` gives a calendar and the parents of all its versions the ids that
`f` has for them, and leaves the rest.  Edits of a calendar look at its rules and
bounds and never at an id, so they commute with it (`Edit.run_renumber`).  How a
calendar is renumbered hangs on its own ids alone (`renumber_congr`).
-/
import WorkingTime.Proofs.Calendar.Edit

namespace WorkingTime

namespace Version

/-- The version with another id for its parent. -/
def renumber (f : CalendarId → CalendarId) (v : Version) : Version :=
  { v with parent := v.parent.map f }

variable {f g : CalendarId → CalendarId} {v : Version}

theorem renumber_congr (hparent : ∀ p ∈ v.parent, g p = f p) : v.renumber g = v.renumber f := by
  have hmap : v.parent.map g = v.parent.map f := Option.map_congr hparent
  rw [renumber, renumber, hmap]

theorem addException_renumber (e : ExceptionDay) :
    (v.renumber f).addException e = renumber f <$> v.addException e := by
  have hstart : (v.renumber f).validFrom = v.validFrom := rfl
  rw [addException, addException, hstart]
  cases v.validFrom.filter (e.date < ·) with
  | some start => rfl
  | none =>
      show (if (v.exceptionOn? e.date).isSome then _ else _) = _
      dsimp only
      split <;> rfl

theorem removeException_renumber (d : Date) :
    (v.renumber f).removeException d =
      (fun answer => (answer.1, answer.2.renumber f)) <$> v.removeException d := by
  have hexception : (v.renumber f).exceptionOn? d = v.exceptionOn? d := rfl
  rw [removeException, removeException, hexception]
  cases v.exceptionOn? d <;> rfl

theorem updateException_renumber (d : Date) (hours : Int) (category : Category) :
    (v.renumber f).updateException d hours category =
      renumber f <$> v.updateException d hours category := by
  have hexception : (v.renumber f).exceptionOn? d = v.exceptionOn? d := rfl
  rw [updateException, updateException, hexception]
  cases ExceptionDay.enter d hours category with
  | error e => rfl
  | ok e =>
      show (if (v.exceptionOn? d).isSome then _ else _) =
        renumber f <$> (if (v.exceptionOn? d).isSome then _ else _)
      split <;> rfl

end Version

namespace Calendar

def renumber (f : CalendarId → CalendarId) (c : Calendar) : Calendar :=
  { c with
    id := f c.id
    superseded := c.superseded.map (·.renumber f)
    current := c.current.renumber f }

variable {f g : CalendarId → CalendarId} {c : Calendar}

/-! ## Versions and parents -/

theorem renumber_id (c : Calendar) (f : CalendarId → CalendarId) : (c.renumber f).id = f c.id := rfl

theorem versions_renumber : (c.renumber f).versions = c.versions.map (·.renumber f) := by
  simp [versions, renumber]

theorem parents_renumber : (c.renumber f).parents = c.parents.map f := by
  simp only [parents, versions_renumber, List.filterMap_map, List.map_filterMap]
  rfl

theorem renumber_single (id : CalendarId) (name : String) (v : Version) :
    (single id name v).renumber f = single (f id) name (v.renumber f) := rfl

theorem versionAt_renumber (d : Date) :
    (c.renumber f).versionAt d = (c.versionAt d).renumber f := by
  have houtlasts : ((·.outlasts d) ∘ Version.renumber f) = (·.outlasts d) := rfl
  rw [versionAt, versionAt, renumber, List.find?_map, houtlasts, Option.getD_map]

theorem versionIndexAt_renumber (d : Date) :
    (c.renumber f).versionIndexAt d = c.versionIndexAt d := by
  rw [versionIndexAt, versionIndexAt, renumber, List.findIdx_map]
  rfl

theorem renumber_congr (hid : g c.id = f c.id) (hparents : ∀ p ∈ c.parents, g p = f p) :
    c.renumber g = c.renumber f := by
  have hversion : ∀ v ∈ c.versions, v.renumber g = v.renumber f := by
    intro v hv
    refine Version.renumber_congr ?_
    intro p hp
    exact hparents p (mem_parents.mpr ⟨v, hv, hp⟩)
  have hsuperseded : c.superseded.map (·.renumber g) = c.superseded.map (·.renumber f) :=
    List.map_congr_left fun v hv => hversion v (mem_versions.mpr (.inl hv))
  rw [renumber, renumber, hid, hsuperseded, hversion _ c.current_mem_versions]

/-! ## Edits -/

theorem setHours_renumber (w : Weekday) (hours : Option Int) :
    (c.renumber f).setHours w hours = renumber f <$> c.setHours w hours := by
  rw [setHours, setHours]
  cases DayRule.enter hours <;> rfl

theorem setHoursPerDay_renumber (hours : List (Weekday × Option Int)) :
    (c.renumber f).setHoursPerDay hours = renumber f <$> c.setHoursPerDay hours := by
  rw [setHoursPerDay, setHoursPerDay, map_bind]
  rfl

theorem addException_renumber (e : ExceptionDay) :
    (c.renumber f).addException e = renumber f <$> c.addException e := by
  have hcurrent : (c.renumber f).current = c.current.renumber f := rfl
  rw [addException, addException, hcurrent, Version.addException_renumber]
  cases c.current.addException e <;> rfl

theorem removeException_renumber (d : Date) :
    (c.renumber f).removeException d =
      (fun answer => (answer.1, answer.2.renumber f)) <$> c.removeException d := by
  have hcurrent : (c.renumber f).current = c.current.renumber f := rfl
  rw [removeException, removeException, hcurrent, Version.removeException_renumber]
  cases c.current.removeException d <;> rfl

theorem updateException_renumber (d : Date) (hours : Int) (category : Category) :
    (c.renumber f).updateException d hours category =
      renumber f <$> c.updateException d hours category := by
  have hcurrent : (c.renumber f).current = c.current.renumber f := rfl
  rw [updateException, updateException, hcurrent, Version.updateException_renumber]
  cases c.current.updateException d hours category <;> rfl

theorem newVersion_renumber (start : Date) :
    (c.renumber f).newVersion start = renumber f <$> c.newVersion start := by
  have hstart : (c.renumber f).current.validFrom = c.current.validFrom := rfl
  rw [newVersion, newVersion, hstart]
  cases c.current.validFrom.filter (start ≤ ·) with
  | some first => rfl
  | none =>
      refine congrArg Except.ok ?_
      simp [renumber, Version.renumber, Version.successor]

/-- Modifying one of the versions can wait until they are renumbered, when the
modification does not look at parents. -/
theorem modify_renumber (change : Version → Version)
    (hchange : ∀ v, change (v.renumber f) = (change v).renumber f) (vs : List Version) (i : Nat) :
    (vs.map (·.renumber f)).modify i change = (vs.modify i change).map (·.renumber f) := by
  refine List.ext_getElem? ?_
  intro j
  simp only [List.getElem?_modify, List.getElem?_map]
  split
  · simp [hchange, Function.comp_def]
  · simp

theorem withBoundary_renumber (i : Nat) (d : Date) :
    (c.renumber f).withBoundary i d = (c.withBoundary i d).renumber f := by
  let closed (v : Version) : Version := { v with expires := some d }
  let opened (v : Version) : Version := { v with validFrom := some d }
  have hclosed := modify_renumber (f := f) closed fun _ => rfl
  have hopened := modify_renumber (f := f) opened fun _ => rfl
  simp only [withBoundary, renumber, List.length_map, hclosed, hopened, closed, opened]
  split <;> rfl

theorem moveBoundary_renumber (i : Nat) (earlier : Version) (d : Date) :
    (c.renumber f).moveBoundary i (earlier.renumber f) d =
      renumber f <$> c.moveBoundary i earlier d := by
  have hlater : (c.renumber f).superseded[i + 1]?.getD (c.renumber f).current =
      (c.superseded[i + 1]?.getD c.current).renumber f := by
    rw [renumber, List.getElem?_map, Option.getD_map]
  rw [moveBoundary, moveBoundary, hlater, withBoundary_renumber]
  show (if isBetween earlier.validFrom d (c.superseded[i + 1]?.getD c.current).expires then _
    else _) = _
  split <;> rfl

theorem setExpires_renumber (d reference : Date) :
    (c.renumber f).setExpires d reference = renumber f <$> c.setExpires d reference := by
  have hearlier : (c.renumber f).superseded[c.versionIndexAt reference]? =
      c.superseded[c.versionIndexAt reference]?.map (·.renumber f) := List.getElem?_map
  simp only [setExpires, versionIndexAt_renumber, hearlier]
  cases c.superseded[c.versionIndexAt reference]? with
  | none => rfl
  | some earlier => exact moveBoundary_renumber _ earlier d

theorem setValidFrom_renumber (d reference : Date) :
    (c.renumber f).setValidFrom d reference = renumber f <$> c.setValidFrom d reference := by
  simp only [setValidFrom, versionIndexAt_renumber]
  have hearlier : (c.renumber f).superseded[c.versionIndexAt reference - 1]? =
      c.superseded[c.versionIndexAt reference - 1]?.map (·.renumber f) := List.getElem?_map
  rw [hearlier]
  cases c.versionIndexAt reference with
  | zero => rfl
  | succ j =>
      cases c.superseded[j + 1 - 1]? with
      | none => rfl
      | some earlier => exact moveBoundary_renumber j earlier d

theorem Edit.run_renumber (e : Edit) : e.run (c.renumber f) = renumber f <$> e.run c := by
  cases e with
  | setHours w hours => exact setHours_renumber w hours
  | setInherited w => rfl
  | setHoursPerDay hours => exact setHoursPerDay_renumber hours
  | addException e => exact addException_renumber e
  | removeException d =>
      rw [run, run, removeException_renumber, Functor.map_map, Functor.map_map]
  | updateException d hours category => exact updateException_renumber d hours category
  | newVersion start => exact newVersion_renumber start
  | setExpires d reference => exact setExpires_renumber d reference
  | setValidFrom d reference => exact setValidFrom_renumber d reference

end Calendar

end WorkingTime
