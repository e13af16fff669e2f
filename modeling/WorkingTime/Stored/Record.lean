/-
Reading records.

A record is stored as an object with named fields, or as a list of its fields
in their order.  Values are read in document order and the first fault wins;
fields that are missing count only after the end of the object.  In an object
a key that names no field is passed over, also when it is repeated, and a
field named twice is a fault before its second value is looked at.  A list may
be shorter than the record only by optional fields, and never longer.
-/
import WorkingTime.Json.Reader
import WorkingTime.Registry.Basic
import WorkingTime.Text.Position

namespace WorkingTime

/-! ## Faults -/

/-- Why a text is not a stored value. -/
inductive ReadError where
  /-- It is not JSON, or JSON of another shape. -/
  | malformed
  | missingField (name : String)
  | duplicateField (name : String)
  /-- A name that is none of the known ones. -/
  | unknownVariant (name : String) (known : List String)
  /-- A list of exceptions with two on one date. -/
  | repeatedException (date : Date)
  /-- Fields that do not fit together. -/
  | rule (error : RuleError)
  /-- Calendars that do not fit together. -/
  | registry (error : RegistryError)
deriving DecidableEq

namespace ReadError

/-- The wording of a fault; none for what is not JSON of the right shape. -/
def wording : ReadError → String
  | malformed => ""
  | missingField name => s!"missing field `{name}`"
  | duplicateField name => s!"duplicate field `{name}`"
  | unknownVariant name known =>
      let expected := ", ".intercalate (known.map fun k => s!"`{k}`")
      s!"unknown variant `{name}`, expected one of {expected}"
  | repeatedException d => s!"duplicate exception on {d}"
  | rule e => e.message
  | registry e => e.message

/-- The words of a wording before the text it quotes at its end; only the
wording of a bad weekday ends with a quotation. -/
def opening : ReadError → String
  | rule (.weekdayName _) => (RuleError.weekdayName "").message
  | _ => ""

/-- What is told of a wording whose end was cut off: nothing, when the cut goes
into the opening words. -/
def told (e : ReadError) (rest : String) : String :=
  if e.opening.toList.isPrefixOf rest.toList then rest else ""

/-- The message of a fault in a document, without its position.  The position
is the one the wording ends with, if its numbers are small enough to be read,
and else the place where the document was left. -/
def message (e : ReadError) : String :=
  match Text.splitPosition? e.wording with
  | some (rest, position) => if position.isSmall then e.told rest else e.wording
  | none => e.wording

/-- The message of a fault in a value that is no part of a document, without a
position.  There is no place to fall back on: when the wording ends with a
position that is no place, what looks like a position before it is the last
one that is told. -/
def loneMessage (e : ReadError) : String :=
  match Text.splitPosition? e.wording with
  | some (rest, position) =>
      e.told (if position.isSmall && position.line == 0 then Text.withoutPosition rest else rest)
  | none => e.wording

end ReadError

/-! ## Records -/

/-- A field of a record, read into slots `σ`. -/
structure Field (σ : Type) where
  name : String
  read : Reading → σ → Except ReadError σ
  /-- Whether a list may end before the field. -/
  optional : Bool

/-- A record type `α` with slots `σ` for the fields read so far. -/
structure Record (σ α : Type) where
  /-- The fields in their order. -/
  fields : List (Field σ)
  /-- No field read. -/
  blank : σ
  /-- The record with these fields, or the name of the first one missing. -/
  build : σ → Except String α

namespace Field

variable {σ α : Type}

/-- A field that must be there. -/
def required (name : String) (read : Reading → Except ReadError α) (put : σ → α → σ) : Field σ :=
  ⟨name, fun value slots => put slots <$> read value, false⟩

/-- A field that may be missing. -/
def optionally (name : String) (read : Reading → Except ReadError α) (put : σ → α → σ) :
    Field σ :=
  { required name read put with optional := true }

/-- The value of a slot, or the name of its field. -/
def slot (name : String) : Option α → Except String α
  | some a => .ok a
  | none => .error name

end Field

namespace Record

variable {σ α : Type}

/-- Reads members into slots, given the names of the fields read before. -/
def readMembers (fields : List (Field σ)) (seen : List String) (slots : σ) :
    List (Option String × Reading) → Except ReadError σ
  | [] => .ok slots
  | (none, _) :: _ => .error .malformed
  | (some key, value) :: rest =>
      match fields.find? (·.name == key) with
      | none =>
          if value.isWhole then readMembers fields seen slots rest else .error .malformed
      | some field =>
          if seen.contains key then .error (.duplicateField key)
          else do readMembers fields (key :: seen) (← field.read value slots) rest

/-- Reads items into slots, one for each field. -/
def readItems : List (Field σ) → σ → List Reading → Except ReadError σ
  | fields, slots, [] =>
      if fields.all (·.optional) then .ok slots else .error .malformed
  | [], _, _ :: _ => .error .malformed
  | field :: fields, slots, value :: rest => do
      readItems fields (← field.read value slots) rest

def ofMembers (form : Record σ α) (members : List (Option String × Reading)) (closed : Bool) :
    Except ReadError α := do
  let slots ← readMembers form.fields [] form.blank members
  unless closed do throw .malformed
  (form.build slots).mapError .missingField

def ofItems (form : Record σ α) (items : List Reading) (closed : Bool) : Except ReadError α := do
  let slots ← readItems form.fields form.blank items
  unless closed do throw .malformed
  -- only optional fields were left out, so nothing is missing here
  (form.build slots).mapError fun _ => .malformed

def read (form : Record σ α) : Reading → Except ReadError α
  | .object members closed => form.ofMembers members closed
  | .list items closed => form.ofItems items closed
  | _ => .error .malformed

end Record

/-! ## Values without fields -/

namespace Reading

def asText : Reading → Except ReadError String
  | text (some s) => .ok s
  | _ => .error .malformed

def asBool : Reading → Except ReadError Bool
  | bool b => .ok b
  | _ => .error .malformed

/-- An integer that is an `α`. -/
def asInt {α : Type} (ofInt? : Int → Option α) : Reading → Except ReadError α
  | number n =>
      match n.int?.bind ofInt? with
      | some a => .ok a
      | none => .error .malformed
  | _ => .error .malformed

def asNat {α : Type} (ofNat? : Nat → Option α) : Reading → Except ReadError α :=
  asInt fun
    | .ofNat n => ofNat? n
    | .negSucc _ => none

/-- A value that may be `null`. -/
def asNullable {α : Type} (read : Reading → Except ReadError α) :
    Reading → Except ReadError (Option α)
  | null => .ok none
  | value => some <$> read value

def asList {α : Type} (read : Reading → Except ReadError α) : Reading → Except ReadError (List α)
  | list items closed => do
      let values ← items.mapM read
      unless closed do throw .malformed
      return values
  | _ => .error .malformed

end Reading

/-! ## Whole texts -/

/-- Reads a text that is one value and nothing else. -/
def JsonText.decode {α : Type} (read : Reading → Except ReadError α) (text : String) :
    Except ReadError α := do
  let document := JsonText.read text.toList
  let a ← read document.value
  unless document.clean do throw .malformed
  return a

end WorkingTime
