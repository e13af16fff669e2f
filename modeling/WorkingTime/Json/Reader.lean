/-
Reading JSON: from tokens to values.

The reader is a fold over the tokens.  Its state is the stack of lists and
objects that are open and what may come next; a token that may not come stops
it, and everything open is kept as unfinished.  So reading ends on every text,
at any depth, and reading a written value amounts to accepting that value.
-/
import WorkingTime.Json.Token

namespace WorkingTime

/-! ## Open lists and objects -/

/-- A list or object around the value being read, with what it holds so far,
latest first. -/
inductive Frame where
  | list (before : List Reading)
  | object (before : List (Option String × Reading)) (key : Option String)

/-- What may come next, with what the innermost list or object holds so far,
latest first. -/
inductive Focus where
  | value
  /-- An item or the end of a list. -/
  | listOpened
  /-- A comma or the end of a list. -/
  | afterItem (items : List Reading)
  /-- A key or the end of an object. -/
  | objectOpened
  | key (members : List (Option String × Reading))
  /-- The colon after a key. -/
  | colon (members : List (Option String × Reading)) (key : Option String)
  /-- A comma or the end of an object. -/
  | afterMember (members : List (Option String × Reading))

/-- The unfinished value around a value, itself possibly unfinished. -/
def Frame.cut (r : Reading) : Frame → Reading
  | list before => .list (r :: before).reverse false
  | object before key => .object ((key, r) :: before).reverse false

/-- The unfinished value where the text stops being JSON. -/
def Focus.cut : Focus → Reading
  | value => .broken
  | listOpened => .list [] false
  | afterItem items => .list items.reverse false
  | objectOpened => .object [] false
  | key members => .object members.reverse false
  | colon members k => .object ((k, .broken) :: members).reverse false
  | afterMember members => .object members.reverse false

/-! ## Steps -/

/-- How far a text has been read. -/
inductive Progress where
  /-- Within a value. -/
  | inside (frames : List Frame) (focus : Focus)
  /-- To the end of a value. -/
  | complete (r : Reading)
  /-- To a token that may not come; no more is read. -/
  | stopped (r : Reading)

namespace Progress

/-- Nothing read: a value comes first. -/
def fresh : Progress := inside [] .value

def stop (frames : List Frame) (focus : Focus) : Progress :=
  stopped (frames.foldl Frame.cut focus.cut)

def accept (r : Reading) : List Frame → Progress
  | [] => complete r
  | .list before :: frames => inside frames (.afterItem (r :: before))
  | .object before key :: frames => inside frames (.afterMember ((key, r) :: before))

/-- A token where a value may come. -/
def startValue (frames : List Frame) : Token → Progress
  | .listStart => inside frames .listOpened
  | .objectStart => inside frames .objectOpened
  | .text s => accept (.text s) frames
  | .scalar r => accept r frames
  | _ => stop frames .value

def stepInside (frames : List Frame) (focus : Focus) (token : Token) : Progress :=
  match focus, token with
  | .value, _ => startValue frames token
  | .listOpened, .listEnd => accept (.list [] true) frames
  | .listOpened, .listStart | .listOpened, .objectStart
  | .listOpened, .text _ | .listOpened, .scalar _ => startValue (.list [] :: frames) token
  | .afterItem items, .comma => inside (.list items :: frames) .value
  | .afterItem items, .listEnd => accept (.list items.reverse true) frames
  | .objectOpened, .objectEnd => accept (.object [] true) frames
  | .objectOpened, .text key => inside frames (.colon [] key)
  | .key members, .text key => inside frames (.colon members key)
  | .colon members key, .colon => inside (.object members key :: frames) .value
  | .afterMember members, .comma => inside frames (.key members)
  | .afterMember members, .objectEnd => accept (.object members.reverse true) frames
  | _, _ => stop frames focus

def step (p : Progress) (token : Token) : Progress :=
  match p with
  | inside frames focus => stepInside frames focus token
  | complete r => stopped r
  | stopped r => stopped r

end Progress

/-! ## Whole texts -/

/-- What is read from a text. -/
structure JsonText where
  value : Reading
  /-- Whether the text is one JSON value and nothing else. -/
  clean : Bool

namespace JsonText

/-- The state of reading a text: an unfinished token, and the tokens before. -/
structure Reader where
  lexing : Lexing
  progress : Progress

def Reader.step (r : Reader) (c : Char) : Reader :=
  let (lexing, tokens) := r.lexing.step c
  ⟨lexing, tokens.foldl Progress.step r.progress⟩

/-- The state at the end of the text as a whole. -/
def Reader.finish (r : Reader) : JsonText :=
  match r.lexing.finish.foldl Progress.step r.progress with
  | .inside frames focus => ⟨frames.foldl Frame.cut focus.cut, false⟩
  | .complete v => ⟨v, true⟩
  | .stopped v => ⟨v, false⟩

def read (text : List Char) : JsonText :=
  (text.foldl Reader.step ⟨.idle, .fresh⟩).finish

end JsonText

end WorkingTime
