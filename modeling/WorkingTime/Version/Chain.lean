/-
Version chains: lists of versions that divide time among them.

The first version is open at its start, the last one at its end, and every
boundary between is shared by its two neighbours and later than the one
before.  The check goes from left to right and names the first violation.
-/
import WorkingTime.Version.Basic

namespace WorkingTime

/-- Why a list of versions does not divide time. -/
inductive ChainFault where
  | empty
  | boundedStart
  | boundedEnd
  | openInside
  | notShared (boundary : Date)
  | outOfOrder (boundary : Date)
deriving DecidableEq

def ChainFault.message : ChainFault → String
  | empty => "a calendar needs at least one version"
  | boundedStart => "the first version must not have a start date"
  | boundedEnd => "the last version must not have an expiring date"
  | openInside => "only the last version may be open-ended"
  | notShared d => s!"version boundary {d} is not shared by the next version"
  | outOfOrder d => s!"version boundary {d} is out of order"

namespace Version

/-- Whether each version ends where the next one starts, later than
`previous` and than the boundaries before it. -/
def checkBoundaries (previous : Option Date) : List Version → Except ChainFault Unit
  | earlier :: later :: rest =>
      match earlier.expires with
      | none => .error .openInside
      | some boundary =>
          if later.validFrom ≠ some boundary then .error (.notShared boundary)
          else if previous.any (boundary ≤ ·) then .error (.outOfOrder boundary)
          else checkBoundaries (some boundary) (later :: rest)
  | _ => .ok ()

def checkChain (versions : List Version) : Except ChainFault Unit :=
  match versions.head?, versions.getLast? with
  | some first, some last =>
      if first.validFrom.isSome then .error .boundedStart
      else if last.expires.isSome then .error .boundedEnd
      else checkBoundaries none versions
  | _, _ => .error .empty

/-- The check of a chain as a check of rules. -/
def validateChain (versions : List Version) : Except RuleError Unit :=
  (checkChain versions).mapError fun fault => .versionChain fault.message

end Version

end WorkingTime
