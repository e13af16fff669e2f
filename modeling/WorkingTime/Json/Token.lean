/-
The tokens of a JSON text: brackets, commas, colons, strings, and the words
between them, which are numbers and the names `null`, `true` and `false`.

The lexer goes through the text one character at a time; its state is what it
has read of an unfinished token.  A character ends a word and is then read
again, so one step gives up to two tokens.
-/
import WorkingTime.Json.Reading

namespace WorkingTime

/-- A token of a JSON text. -/
inductive Token where
  | listStart | listEnd | objectStart | objectEnd
  | comma | colon
  /-- A string; none when it has an unpaired surrogate. -/
  | text (s : Option String)
  /-- A value that is neither a string nor bracketed. -/
  | scalar (r : Reading)
  /-- Characters that are no token. -/
  | junk

namespace Token

/-! ## Words -/

def ofWord (word : List Char) : Token :=
  match word with
  | ['n', 'u', 'l', 'l'] => scalar .null
  | ['t', 'r', 'u', 'e'] => scalar (.bool true)
  | ['f', 'a', 'l', 's', 'e'] => scalar (.bool false)
  | _ =>
      match Numeral.ofWord? word with
      | some n => scalar (.number n)
      | none => junk

/-- The token that is a single character. -/
def punctuation? : Char → Option Token
  | '[' => some listStart
  | ']' => some listEnd
  | '{' => some objectStart
  | '}' => some objectEnd
  | ',' => some comma
  | ':' => some colon
  | _ => none

/-! ## Strings -/

/-- A piece of a string: a character, or a 16-bit unit given by its number. -/
inductive Piece where
  | char (c : Char)
  | unit (n : Nat)

/-- Whether a unit is the first half of a pair. -/
def isHigh (n : Nat) : Bool := 0xD800 ≤ n && n < 0xDC00

/-- Whether a unit is the second half of a pair. -/
def isLow (n : Nat) : Bool := 0xDC00 ≤ n && n < 0xE000

def pairChar (high low : Nat) : Char :=
  Char.ofNat (0x10000 + (high - 0xD800) * 0x400 + (low - 0xDC00))

/-- The characters of a string; none when a half of a pair stands alone. -/
def join? : List Piece → Option (List Char)
  | [] => some []
  | .char c :: rest => (c :: ·) <$> join? rest
  | .unit n :: rest =>
      if isHigh n then
        match rest with
        | .unit m :: rest => if isLow m then (pairChar n m :: ·) <$> join? rest else none
        | _ => none
      else if isLow n then none
      else (Char.ofNat n :: ·) <$> join? rest

/-- The character a letter stands for after a backslash. -/
def escaped? : Char → Option Char
  | '"' => some '"'
  | '\\' => some '\\'
  | '/' => some '/'
  | 'b' => some '\x08'
  | 'f' => some '\x0c'
  | 'n' => some '\n'
  | 'r' => some '\r'
  | 't' => some '\t'
  | _ => none

/-- The value of a hexadecimal digit of either case. -/
def hexValue? (c : Char) : Option Nat :=
  if Text.isDigit c then some (Text.digitValue c)
  else if 'a' ≤ c ∧ c ≤ 'f' then some (c.toNat - 87)
  else if 'A' ≤ c ∧ c ≤ 'F' then some (c.toNat - 55)
  else none

end Token

/-! ## The lexer -/

/-- What has been read of an unfinished token, latest first. -/
inductive Lexing where
  /-- Between tokens. -/
  | idle
  | word (read : List Char)
  | text (read : List Token.Piece)
  /-- In a string, after a backslash. -/
  | escape (read : List Token.Piece)
  /-- In a string, after `digits` of four hexadecimal digits. -/
  | unit (read : List Token.Piece) (digits value : Nat)

namespace Lexing

def isSpace (c : Char) : Bool :=
  c == ' ' || c == '\n' || c == '\r' || c == '\t'

/-- Reads a character between tokens. -/
def start (c : Char) : Lexing × List Token :=
  if isSpace c then (idle, [])
  else if c = '"' then (text [], [])
  else match Token.punctuation? c with
    | some token => (idle, [token])
    | none => (word [c], [])

def endsWord (c : Char) : Bool :=
  isSpace c || c == '"' || (Token.punctuation? c).isSome

/-- The token of the pieces of a string, latest first. -/
def textToken (read : List Token.Piece) : Token :=
  .text ((Token.join? read.reverse).map String.ofList)

/-- Reads a character; gives the tokens that it ends. -/
def step (state : Lexing) (c : Char) : Lexing × List Token :=
  match state with
  | idle => start c
  | word read =>
      if endsWord c then
        let (next, tokens) := start c
        (next, Token.ofWord read.reverse :: tokens)
      else (word (c :: read), [])
  | text read =>
      if c = '"' then (idle, [textToken read])
      else if c = '\\' then (escape read, [])
      else if c.toNat < 0x20 then (idle, [.junk])
      else (text (.char c :: read), [])
  | escape read =>
      if c = 'u' then (unit read 0 0, [])
      else match Token.escaped? c with
        | some e => (text (.char e :: read), [])
        | none => (idle, [.junk])
  | unit read digits value =>
      match Token.hexValue? c with
      | some h =>
          let value := 16 * value + h
          if digits < 3 then (unit read (digits + 1) value, [])
          else (text (.unit value :: read), [])
      | none => (idle, [.junk])

/-- The tokens that the end of the text ends. -/
def finish : Lexing → List Token
  | idle => []
  | word read => [Token.ofWord read.reverse]
  | _ => [.junk]

end Lexing

end WorkingTime
