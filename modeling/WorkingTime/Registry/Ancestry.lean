/-
Following parents.

Two walks.  `reaches` asks whether a calendar is another one or one of its
ancestors through any versions; it ends on every graph, cycles and missing
calendars included, because it expands a calendar once.  `lineage` lists a
calendar and its ancestors along one chosen version of each; it takes every
calendar out of the ones that remain, so that it ends as well, and only a
missing or repeated calendar makes it fail.
-/
import WorkingTime.Registry.Basic

namespace WorkingTime.Registry

/-! ## Any version -/

/-- The rows left after taking out those with this id. -/
def without (id : CalendarId) (cs : List Calendar) : List Calendar :=
  cs.filter fun c => c.id != id

theorem length_without_lt {id : CalendarId} {c : Calendar} {cs : List Calendar}
    (h : cs.find? (fun c => c.id == id) = some c) :
    (without id cs).length < cs.length := by
  have hid : c.id = id := by simpa using List.find?_some h
  exact List.length_filter_lt_length_iff_exists.mpr
    ⟨c, List.mem_of_find?_eq_some h, by simp [hid]⟩

/-- Whether `target` is one of the pending ids or an ancestor of one, going
through calendars that remain to be expanded. -/
def reachesFrom (target : CalendarId) :
    (remaining : List Calendar) → (pending : List CalendarId) → Bool
  | _, [] => false
  | remaining, id :: pending =>
      if id = target then true
      else match _ : remaining.find? (fun c => c.id == id) with
        | some c => reachesFrom target (without id remaining) (c.parents ++ pending)
        | none => reachesFrom target remaining pending
termination_by remaining pending => (remaining.length, pending.length)
decreasing_by
  · exact Prod.Lex.left _ _ (length_without_lt ‹_›)
  · exact Prod.Lex.right _ (Nat.lt_succ_self _)

/-- Whether `target` is `start` or one of its ancestors through any versions. -/
def reaches (r : Registry) (start target : CalendarId) : Bool :=
  reachesFrom target r.calendars.rows [start]

/-! ## One version of each calendar -/

/-- A calendar and its ancestors, nearest first, along the versions `pick`
chooses, among the calendars that remain. -/
def climb (pick : Calendar → Version) (remaining : List Calendar) (id : CalendarId) :
    Except RegistryError (List Calendar) :=
  match _ : remaining.find? (fun c => c.id == id) with
  | none => .error (.unknownId id)
  | some c =>
      match (pick c).parent with
      | none => .ok [c]
      | some parent => (c :: ·) <$> climb pick (without id remaining) parent
termination_by remaining.length
decreasing_by exact length_without_lt ‹_›

/-- A calendar and its ancestors, nearest first, along the versions `pick`
chooses. -/
def lineage (r : Registry) (pick : Calendar → Version) (id : CalendarId) :
    Except RegistryError (List Calendar) :=
  climb pick r.calendars.rows id

/-- The versions along a lineage, nearest first. -/
def versionsAlong (r : Registry) (pick : Calendar → Version) (id : CalendarId) :
    Except RegistryError (List Version) :=
  List.map pick <$> r.lineage pick id

end WorkingTime.Registry
