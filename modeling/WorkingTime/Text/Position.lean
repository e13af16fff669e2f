/-
Positions at the ends of messages: ` at line 3 column 14`.

A message about a fault in a text ends with the position of the fault.  When a
message quotes the text at its end, that end can look like a position as well;
splitting a message takes off the last one.
-/
import WorkingTime.Text.Decimal

namespace WorkingTime.Text

/-- A place in a text.  Lines are counted from 1, so line 0 is no place. -/
structure Position where
  line : Nat
  column : Nat
deriving DecidableEq

/-- Whether both numbers have at most 64 bits. -/
def Position.isSmall (p : Position) : Bool :=
  p.line < UInt64.size && p.column < UInt64.size

/-- A number at the end of a reversed text, and what stands before it. -/
def endNumber? (reversed : List Char) : Option (Nat × List Char) :=
  match reversed.takeWhile isDigit with
  | [] => none
  | digits => some (value digits.reverse, reversed.dropWhile isDigit)

def beforeWord? (word : String) (reversed : List Char) : Option (List Char) :=
  let word := word.toList.reverse
  if word.isPrefixOf reversed then some (reversed.drop word.length) else none

/-- A message without the position at its end, and that position. -/
def splitPosition? (message : String) : Option (String × Position) := do
  let (column, rest) ← endNumber? message.toList.reverse
  let rest ← beforeWord? " column " rest
  let (line, rest) ← endNumber? rest
  let rest ← beforeWord? " at line " rest
  return (String.ofList rest.reverse, ⟨line, column⟩)

def withoutPosition (message : String) : String :=
  match splitPosition? message with
  | some (rest, _) => rest
  | none => message

end WorkingTime.Text
