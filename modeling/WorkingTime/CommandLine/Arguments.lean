/-
The arguments of the command line.

An argument is an option, a cluster of one-letter options, a verb or an
operand of the verb.  Reading goes through the arguments one at a time; what
is wrong is not told apart, since every misuse ends the same way, but the
order matters, because asking for help or for the version ends the reading at
once.  Options may stand before or after the verb.
-/
import WorkingTime.Command.Effect

namespace WorkingTime.CommandLine

/-! ## Tasks -/

/-- A question about one calendar of a document. -/
inductive Query where
  | capacity (calendar : String) (date : Date)
  | classify (calendar : String) (date : Date)
  | hours (calendar : String) (start finish : Date)
  | week (calendar : String) (date : Date)
  | nonWorkable (calendar : String) (start finish : Date)
  | versions (calendar : String)
deriving DecidableEq

/-- What is asked of the program. -/
inductive Task where
  /-- Write an empty document; with `force`, also over an existing one. -/
  | init (force : Bool)
  | query (query : Query)
  /-- Apply the commands in a file; with `dryRun`, without writing. -/
  | apply (commands : String) (dryRun : Bool)
deriving DecidableEq

/-- A task, the document it is about, and how much is logged. -/
structure Invocation where
  document : String
  /-- How often more, less how often less, logging was asked for. -/
  verbosity : Int
  task : Task
deriving DecidableEq

/-- Why no task is carried out. -/
inductive Halt where
  | misuse | help | version
deriving DecidableEq

/-! ## Verbs and operands -/

/-- The verbs of the command line. -/
inductive Verb where
  | init | capacity | classify | hours | week | nonWorkable | versions | apply
deriving DecidableEq

/-- An operand, read for what it is. -/
inductive Operand where
  | text (s : String)
  | date (d : Date)

/-- What an operand has to be. -/
inductive OperandKind where
  | name | date | path

namespace Verb

def ofName? : String → Option Verb
  | "init" => some init
  | "capacity" | "cap" => some capacity
  | "classify" => some classify
  | "hours" => some hours
  | "week" => some week
  | "non-workable" | "nw" => some nonWorkable
  | "versions" => some versions
  | "apply" => some apply
  | _ => none

/-- The option that only this verb has. -/
def switch? : Verb → Option String
  | init => some "force"
  | apply => some "dry-run"
  | _ => none

def operands : Verb → List OperandKind
  | init => []
  | capacity | classify | week => [.name, .date]
  | hours | nonWorkable => [.name, .date, .date]
  | versions => [.name]
  | apply => [.path]

/-- The task of a verb with its operands. -/
def task? (verb : Verb) (switched : Bool) (operands : List Operand) : Option Task :=
  match verb, operands with
  | init, [] => some (.init switched)
  | capacity, [.text c, .date d] => some (.query (.capacity c d))
  | classify, [.text c, .date d] => some (.query (.classify c d))
  | hours, [.text c, .date s, .date f] => some (.query (.hours c s f))
  | week, [.text c, .date d] => some (.query (.week c d))
  | nonWorkable, [.text c, .date s, .date f] => some (.query (.nonWorkable c s f))
  | versions, [.text c] => some (.query (.versions c))
  | apply, [.text path] => some (.apply path switched)
  | _, _ => none

end Verb

/-- An argument read as an operand; a path is not empty. -/
def OperandKind.read? (kind : OperandKind) (argument : String) : Option Operand :=
  match kind with
  | name => some (.text argument)
  | path => if argument.isEmpty then none else some (.text argument)
  | date => .date <$> (Date.parse argument).toOption

/-! ## Options -/

/-- The options given before the verb, or those given after it. -/
structure Options where
  document : Option String := none
  /-- Whether the next argument is the path of the document. -/
  awaitsPath : Bool := false
  verbose : Nat := 0
  quiet : Nat := 0
  /-- Whether the option that only the verb has is given. -/
  switched : Bool := false

namespace Options

/-- The options with a path for the document, which is given at most once and
not empty. -/
def setDocument (o : Options) (path : String) : Except Halt Options :=
  if o.document.isSome || path.isEmpty then .error .misuse
  else .ok { o with document := some path, awaitsPath := false }

/-- A path as an argument of its own; only a single hyphen may begin it. -/
def takePath (o : Options) (argument : String) : Except Halt Options :=
  if argument.startsWith "-" && argument != "-" then .error .misuse
  else o.setDocument argument

/-- The count after one more; it stops at 255. -/
def oneMore (count : Nat) : Nat :=
  min 255 (count + 1)

/-- The version is only told before the verb. -/
def halt (verb : Option Verb) : Halt → Halt
  | .version => if verb.isNone then .version else .misuse
  | h => h

def long (o : Options) (verb : Option Verb) (name : String) (value : Option String) :
    Except Halt Options :=
  match name, value with
  | "file", some path => o.setDocument path
  | "file", none => .ok { o with awaitsPath := true }
  | "verbose", none => .ok { o with verbose := oneMore o.verbose }
  | "quiet", none => .ok { o with quiet := oneMore o.quiet }
  | "help", none => .error .help
  | "version", none => .error (halt verb .version)
  | _, none =>
      if verb.bind Verb.switch? == some name && !o.switched then .ok { o with switched := true }
      else .error .misuse
  | _, some _ => .error .misuse

/-- One-letter options after a single hyphen; the path of the document takes
the rest of the argument, or the next one. -/
def short (verb : Option Verb) (o : Options) : List Char → Except Halt Options
  | [] => .ok o
  | 'v' :: rest => short verb { o with verbose := oneMore o.verbose } rest
  | 'q' :: rest => short verb { o with quiet := oneMore o.quiet } rest
  | 'h' :: _ => .error .help
  | 'V' :: _ => .error (halt verb .version)
  | ['f'] => .ok { o with awaitsPath := true }
  | 'f' :: '=' :: path => o.setDocument (String.ofList path)
  | 'f' :: path => o.setDocument (String.ofList path)
  | _ => .error .misuse

/-- Whether the options contradict each other or lack a value. -/
def isMisuse (o : Options) : Bool :=
  o.awaitsPath || (0 < o.verbose && 0 < o.quiet)

end Options

/-! ## One argument after another -/

/-- What has been read of the arguments. -/
structure Reader where
  verb : Option Verb := none
  /-- The options before the verb. -/
  before : Options := {}
  /-- The options after the verb. -/
  after : Options := {}
  operands : List Operand := []
  /-- Whether all further arguments are operands. -/
  plain : Bool := false

namespace Reader

/-- The options of the side of the verb on which reading is. -/
def options (r : Reader) : Options :=
  if r.verb.isNone then r.before else r.after

def withOptions (r : Reader) (o : Options) : Reader :=
  if r.verb.isNone then { r with before := o } else { r with after := o }

/-- A word: the verb, or an operand of it. -/
def word (r : Reader) (argument : String) : Except Halt Reader :=
  match r.verb with
  | none =>
      match Verb.ofName? argument with
      | some verb => .ok { r with verb := some verb }
      | none => .error .misuse
  | some verb =>
      match verb.operands[r.operands.length]?.bind (·.read? argument) with
      | some operand => .ok { r with operands := r.operands ++ [operand] }
      | none => .error .misuse

/-- A long option, cut at the first equals sign. -/
def long (r : Reader) (text : List Char) : Except Halt Reader :=
  let name := String.ofList (text.takeWhile (· != '='))
  let value := match text.dropWhile (· != '=') with
    | _ :: value => some (String.ofList value)
    | [] => none
  r.withOptions <$> r.options.long r.verb name value

def step (r : Reader) (argument : String) : Except Halt Reader :=
  if r.options.awaitsPath then r.withOptions <$> r.options.takePath argument
  else if r.plain then r.word argument
  else match argument.toList with
    | ['-', '-'] => if r.verb.isNone then .error .misuse else .ok { r with plain := true }
    | '-' :: '-' :: text => r.long text
    | '-' :: c :: letters => r.withOptions <$> Options.short r.verb r.options (c :: letters)
    | _ => r.word argument

/-- Whether an argument is the word `help` in the place of a verb. -/
def asksHelp (r : Reader) (argument : String) : Bool :=
  r.verb.isNone && !r.before.awaitsPath && argument == "help"

/-- What comes of asking for help with words after it: help on the program, or
on one verb, `help` included.  Options are not read there. -/
def helpOn : List String → Halt
  | [] => .help
  | [name] => if name == "help" || (Verb.ofName? name).isSome then .help else .misuse
  | _ => .misuse

def steps (r : Reader) : List String → Except Halt Reader
  | [] => .ok r
  | argument :: rest =>
      if r.asksHelp argument then .error (helpOn rest)
      else do steps (← r.step argument) rest

/-- The path of the document: an option after the verb goes before one before
it, then comes the environment.  The environment is read on each side that has
no path, and must not be empty then. -/
def document (r : Reader) (environment : Option String) : Except Halt String :=
  if environment == some "" && (r.before.document.isNone || r.after.document.isNone) then
    .error .misuse
  else .ok (((r.after.document <|> r.before.document) <|> environment).getD "calendars.json")

/-- A count given after the verb, or else before it. -/
def count (r : Reader) (of : Options → Nat) : Nat :=
  if 0 < of r.after then of r.after else of r.before

def finish (r : Reader) (environment : Option String) : Except Halt Invocation := do
  if r.before.isMisuse || r.after.isMisuse then throw .misuse
  match r.verb with
  | none => throw .misuse
  | some verb =>
      let document ← r.document environment
      match verb.task? r.after.switched r.operands with
      | some task =>
          return { document, task, verbosity := (r.count (·.verbose) : Int) - r.count (·.quiet) }
      | none => throw .misuse

end Reader

/-- Reads the arguments, given the document the environment names. -/
def read (environment : Option String) (arguments : List String) : Except Halt Invocation := do
  (← Reader.steps {} arguments).finish environment

end WorkingTime.CommandLine
