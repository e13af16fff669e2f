/-
JSON values and their two written forms: on one line without spaces, and
indented by two spaces a level.

Values are those the library writes, so numbers are integers and an object is
a list of members in the order in which they are written.  What is read from a
text may be more than that; see `WorkingTime.Json.Reading`.
-/
import WorkingTime.Text.Decimal

namespace WorkingTime

/-- A JSON value to be written. -/
inductive Json where
  | null
  | bool (b : Bool)
  | number (n : Int)
  | text (s : String)
  | list (items : List Json)
  | object (members : List (String × Json))

namespace Json

/-- A value that may be missing, `null` when it is. -/
def nullable {α : Type} (write : α → Json) : Option α → Json
  | some a => write a
  | none => null

/-! ## Strings -/

def hexDigit (n : Nat) : Char :=
  if n < 10 then Text.digit n else Char.ofNat (87 + n)

/-- A character as it stands in a string: quotes, backslashes and the control
characters are escaped, the latter by a letter where there is one. -/
def escape (c : Char) : List Char :=
  match c with
  | '"' => ['\\', '"']
  | '\\' => ['\\', '\\']
  | '\x08' => ['\\', 'b']
  | '\t' => ['\\', 't']
  | '\n' => ['\\', 'n']
  | '\x0c' => ['\\', 'f']
  | '\r' => ['\\', 'r']
  | _ =>
      if c.toNat < 0x20 then
        ['\\', 'u', '0', '0', hexDigit (c.toNat / 16), hexDigit (c.toNat % 16)]
      else [c]

def quote (s : String) : List Char :=
  '"' :: s.toList.flatMap escape ++ ['"']

/-! ## Layouts -/

/-- How lists and objects are laid out. -/
inductive Layout where
  /-- Without any space. -/
  | compact
  /-- Each item on a line of its own, two spaces per level. -/
  | indented (depth : Nat)

namespace Layout

/-- The layout of the items of a list or an object. -/
def deeper : Layout → Layout
  | compact => compact
  | indented depth => indented (depth + 1)

/-- What stands before an item or a closing bracket. -/
def lineBreak : Layout → List Char
  | compact => []
  | indented depth => '\n' :: List.replicate (2 * depth) ' '

/-- What stands between a key and its value. -/
def colon : Layout → List Char
  | compact => [':']
  | indented _ => [':', ' ']

end Layout

/-! ## Values -/

mutual

def write (layout : Layout) : Json → List Char
  | null => ['n', 'u', 'l', 'l']
  | bool true => ['t', 'r', 'u', 'e']
  | bool false => ['f', 'a', 'l', 's', 'e']
  | number n => Text.signed n
  | text s => quote s
  | list [] => ['[', ']']
  | list (item :: rest) =>
      '[' :: layout.deeper.lineBreak ++ write layout.deeper item ++ writeItems layout rest
  | object [] => ['{', '}']
  | object ((key, value) :: rest) =>
      '{' :: layout.deeper.lineBreak ++ quote key ++ layout.deeper.colon ++
        write layout.deeper value ++ writeMembers layout rest

/-- The rest of a list after its first item. -/
def writeItems (layout : Layout) : List Json → List Char
  | [] => layout.lineBreak ++ [']']
  | item :: rest =>
      ',' :: layout.deeper.lineBreak ++ write layout.deeper item ++ writeItems layout rest

/-- The rest of an object after its first member. -/
def writeMembers (layout : Layout) : List (String × Json) → List Char
  | [] => layout.lineBreak ++ ['}']
  | (key, value) :: rest =>
      ',' :: layout.deeper.lineBreak ++ quote key ++ layout.deeper.colon ++
        write layout.deeper value ++ writeMembers layout rest

end

/-- A value on one line. -/
def compact (v : Json) : String :=
  String.ofList (v.write .compact)

/-- A value with one item on a line. -/
def pretty (v : Json) : String :=
  String.ofList (v.write (.indented 0))

end Json

end WorkingTime
