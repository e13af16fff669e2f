/-
The document after runs of the program.

A run that applies a batch writes the document at its end or not at all, and what
it writes is the text of a registry, which the next run reads back as that registry
(`parse_documentText`).  So between any two runs the document tells the registry
that the batches accepted so far make of the empty one, one after the other, and a
run that is refused, or that is a trial, counts for nothing (`document_is_fold`).
-/
import WorkingTime.CommandLine.Session
import WorkingTime.Proofs.Registry.Saved

namespace WorkingTime.CommandLine

/-! ## The text of a document -/

theorem parse_documentText {r : Registry} (h : r.Reachable) (hnamed : r.Named) :
    Registry.parse (documentText r) = .ok r := by
  have hwf := h.wellFormed
  rw [Registry.parse, documentText, JsonText.decode_pretty_line]
  exact Registry.ofReading_toJson hwf.chained (Registry.ofCalendars_rows hwf hnamed)

theorem written_of_init {environment : Option String} {arguments : List String} {files : Files}
    {document text : String} {verbosity : Int} {force : Bool}
    (hread : read environment arguments = .ok ⟨document, verbosity, .init force⟩)
    (hwritten : (run environment files arguments).written = some (document, text)) :
    text = documentText .empty := by
  simp only [run, hread, perform, initialise, save] at hwritten
  split at hwritten
  · cases hwritten
  · split at hwritten
    · cases hwritten
    · cases hwritten
      rfl

/-! ## Results -/

@[simp] theorem Result.exitCode_outcome (i : Invocation) (x : Result) :
    (x.outcome i).exitCode = if x.failure.isSome then 1 else 0 := rfl

@[simp] theorem Result.written_outcome (i : Invocation) (x : Result) :
    (x.outcome i).written = x.written.map (i.document, ·) := rfl

@[simp] theorem Result.failure_after (lines : List Line) (x : Result) :
    (x.after lines).failure = x.failure := rfl

@[simp] theorem Result.written_after (lines : List Line) (x : Result) :
    (x.after lines).written = x.written := rfl

section ApplyBatch

variable {files : Files} {path : String} {r : Registry} {commands : List Command}

theorem applyBatch_of_error (files : Files) (path : String) (dryRun : Bool) {e : RegistryError}
    (h : r.applyAll commands = .error e) :
    (applyBatch files path dryRun r commands).failure.isSome = true ∧
      (applyBatch files path dryRun r commands).written = none := by
  rw [applyBatch, h]
  exact ⟨rfl, rfl⟩

theorem applyBatch_of_ok (dryRun : Bool) {text : String} {r' : Registry} {actions : List Action}
    (hfile : files path = .file text) (h : r.applyAll commands = .ok (r', actions)) :
    (applyBatch files path dryRun r commands).failure = none ∧
      (applyBatch files path dryRun r commands).written =
        if dryRun then none else some (documentText r') := by
  rw [applyBatch, h]
  cases dryRun with
  | true => exact ⟨rfl, rfl⟩
  | false => simp [save, hfile, Entry.writeFault?]

end ApplyBatch

/-! ## Runs that apply a batch -/

/-- A run of the program that applies a command file to a document.  What stands at
other paths than the document's, the command file for one, is as the run finds it. -/
structure ApplyRun (document : String) where
  environment : Option String
  arguments : List String
  files : Files
  verbosity : Int
  commands : String
  dryRun : Bool
  reads : read environment arguments = .ok ⟨document, verbosity, .apply commands dryRun⟩

namespace ApplyRun

variable {document : String}

/-- The files that a run sees when the document has this text. -/
def sees (a : ApplyRun document) (text : String) : Files := fun path =>
  if path = document then .file text else a.files path

def outcome (a : ApplyRun document) (text : String) : Outcome :=
  run a.environment (a.sees text) a.arguments

/-- The commands in the command file, if it can be read and decoded. -/
def batch? (a : ApplyRun document) (text : String) : Option (List Command) :=
  match (a.sees text a.commands).read with
  | .ok commands => (Command.parseList commands).toOption
  | .error _ => none

/-- The text that the document has after a run. -/
def leaves (a : ApplyRun document) (text : String) : String :=
  match (a.outcome text).written with
  | some (path, new) => if path = document then new else text
  | none => text

/-- The commands of a run that ends well and is no trial; none of any other run. -/
def accepted (a : ApplyRun document) (text : String) : List Command :=
  if a.dryRun = false ∧ (a.outcome text).exitCode = 0 then (a.batch? text).getD [] else []

/-- The commands of a run make the registry `r'` of `r`. -/
def Makes (a : ApplyRun document) (r r' : Registry) : Prop :=
  ∃ commands, a.batch? (documentText r) = some commands ∧
    ∃ actions, r.applyAll commands = .ok (r', actions)

/-- How a run ends that finds the document of `r`. -/
structure Ends (a : ApplyRun document) (r : Registry) : Prop where
  /-- A command file that is not understood, or a command that fails. -/
  refused : (¬ ∃ r', a.Makes r r') →
    (a.outcome (documentText r)).exitCode = 1 ∧ (a.outcome (documentText r)).written = none
  carriedOut : ∀ r', a.Makes r r' →
    (a.outcome (documentText r)).exitCode = 0 ∧
      (a.outcome (documentText r)).written =
        if a.dryRun then none else some (document, documentText r')

theorem outcome_eq (a : ApplyRun document) (text : String) :
    a.outcome text =
      (perform (a.sees text) document (.apply a.commands a.dryRun)).outcome
        ⟨document, a.verbosity, .apply a.commands a.dryRun⟩ := by
  rw [outcome, run, a.reads]

theorem sees_document (a : ApplyRun document) (text : String) :
    a.sees text document = .file text :=
  if_pos rfl

/-- A run that finds the document of a registry goes on to the command file with
that registry. -/
theorem outcome_of_parse {a : ApplyRun document} {text : String} {r : Registry}
    (h : Registry.parse text = .ok r) :
    ∃ lines, a.outcome text =
      ((withFile (a.sees text) "command" a.commands Command.parseList
        (applyBatch (a.sees text) document a.dryRun r)).after lines).outcome
          ⟨document, a.verbosity, .apply a.commands a.dryRun⟩ := by
  refine ⟨[storeLine .debug "Loaded calendars" document r], ?_⟩
  simp only [outcome_eq, perform, withRegistry]
  rw [withFile, sees_document]
  simp only [Entry.read, h]

theorem withFile_of_batch {a : ApplyRun document} {text : String} {commands : List Command}
    (h : a.batch? text = some commands) (next : List Command → Result) :
    withFile (a.sees text) "command" a.commands Command.parseList next = next commands := by
  rw [batch?] at h
  rw [withFile]
  split at h
  next new hread =>
    simp only [hread, Answer.toOption_eq_some_iff.mp h]
  · cases h

theorem withFile_of_no_batch {a : ApplyRun document} {text : String} (h : a.batch? text = none)
    (next : List Command → Result) :
    ∃ reason,
      withFile (a.sees text) "command" a.commands Command.parseList next = .failed reason := by
  rw [batch?] at h
  rw [withFile]
  split at h
  next new hread =>
    simp only [hread]
    cases hparse : Command.parseList new with
    | error e => exact ⟨_, rfl⟩
    | ok found => simp [hparse, Except.toOption] at h
  next fault hread =>
    simp only [hread]
    exact ⟨_, rfl⟩

theorem ends {r : Registry} (h : r.Reachable) (hnamed : r.Named) (a : ApplyRun document) :
    a.Ends r := by
  obtain ⟨lines, houtcome⟩ := outcome_of_parse (a := a) (parse_documentText h hnamed)
  constructor
  · intro hnone
    cases hbatch : a.batch? (documentText r) with
    | none =>
        obtain ⟨reason, hfailed⟩ := withFile_of_no_batch hbatch
          (applyBatch (a.sees (documentText r)) document a.dryRun r)
        rw [houtcome, hfailed]
        exact ⟨rfl, rfl⟩
    | some commands =>
        cases happly : r.applyAll commands with
        | ok x => exact absurd ⟨x.1, commands, hbatch, x.2, happly⟩ hnone
        | error e =>
            obtain ⟨hfailure, hwritten⟩ :=
              applyBatch_of_error (a.sees (documentText r)) document a.dryRun happly
            rw [houtcome, withFile_of_batch hbatch]
            simp [hfailure, hwritten]
  · rintro r' ⟨commands, hbatch, actions, happly⟩
    obtain ⟨hfailure, hwritten⟩ :=
      applyBatch_of_ok a.dryRun (a.sees_document (documentText r)) happly
    rw [houtcome, withFile_of_batch hbatch]
    simp only [Result.exitCode_outcome, Result.written_outcome, Result.failure_after,
      Result.written_after, hfailure, hwritten]
    cases a.dryRun <;> exact ⟨rfl, rfl⟩

/-! ### What a run leaves -/

theorem leaves_of_unwritten {a : ApplyRun document} {text : String}
    (h : (a.outcome text).written = none) : a.leaves text = text := by
  rw [leaves, h]

theorem leaves_of_written {a : ApplyRun document} {text new : String}
    (h : (a.outcome text).written = some (document, new)) : a.leaves text = new := by
  rw [leaves, h]
  exact if_pos rfl

/-- A run leaves the document of the registry that its accepted commands make. -/
theorem leaves_documentText {r : Registry} (h : r.Reachable) (hnamed : r.Named)
    (a : ApplyRun document) :
    ∃ r', (∃ actions, r.applyAll (a.accepted (documentText r)) = .ok (r', actions)) ∧
      a.leaves (documentText r) = documentText r' := by
  have hends := a.ends h hnamed
  by_cases hmakes : ∃ r', a.Makes r r'
  · obtain ⟨r', hr'⟩ := hmakes
    obtain ⟨hexit, hwritten⟩ := hends.carriedOut r' hr'
    obtain ⟨commands, hbatch, hall⟩ := hr'
    cases htrial : a.dryRun with
    | true =>
        rw [htrial] at hwritten
        exact ⟨r, ⟨[], by simp [accepted, htrial, Registry.applyAll]⟩,
          leaves_of_unwritten hwritten⟩
    | false =>
        rw [htrial] at hwritten
        have haccepted : a.accepted (documentText r) = commands := by
          simp [accepted, htrial, hexit, hbatch]
        exact ⟨r', haccepted ▸ hall, leaves_of_written hwritten⟩
  · obtain ⟨hexit, hwritten⟩ := hends.refused hmakes
    exact ⟨r, ⟨[], by simp [accepted, hexit, Registry.applyAll]⟩, leaves_of_unwritten hwritten⟩

/-! ### Runs one after the other -/

/-- The text that the document has after runs, one after the other. -/
def textAfter (text : String) (runs : List (ApplyRun document)) : String :=
  runs.foldl (fun text a => a.leaves text) text

def acceptedAll (text : String) : List (ApplyRun document) → List Command
  | [] => []
  | a :: rest => a.accepted text ++ acceptedAll (a.leaves text) rest

/-- Runs leave the document of the registry that their accepted commands make. -/
theorem textAfter_documentText {r : Registry} (h : r.Reachable) (hnamed : r.Named)
    (runs : List (ApplyRun document)) :
    ∃ r', (∃ actions, r.applyAll (acceptedAll (documentText r) runs) = .ok (r', actions)) ∧
      textAfter (documentText r) runs = documentText r' := by
  induction runs generalizing r with
  | nil => exact ⟨r, ⟨[], rfl⟩, rfl⟩
  | cons a rest ih =>
      obtain ⟨r₁, ⟨actions, hfirst⟩, hleaves⟩ := leaves_documentText h hnamed a
      obtain ⟨r', hrest, htext⟩ := ih (h.applyAll hfirst) (hnamed.applyAll hfirst)
      refine ⟨r', ?_, ?_⟩
      · rw [acceptedAll, hleaves, Registry.applyAll_append_iff]
        exact ⟨r₁, ⟨actions, hfirst⟩, hrest⟩
      · rw [textAfter, List.foldl_cons, hleaves]
        exact htext

/-! ### One batch in two runs -/

/-- Three runs, none of them a trial: `b` and `c`, one after the other, find the
two parts of the batch that `a` finds. -/
structure Split (a b c : ApplyRun document) (text : String) : Prop where
  real : a.dryRun = false ∧ b.dryRun = false ∧ c.dryRun = false
  parts : ∃ first second, a.batch? text = some (first ++ second) ∧
    b.batch? text = some first ∧ c.batch? (b.leaves text) = some second

theorem Ends.makes {a : ApplyRun document} {r : Registry} (h : a.Ends r)
    (hexit : (a.outcome (documentText r)).exitCode = 0) : ∃ r', a.Makes r r' := by
  by_contra hnone
  have hone := (h.refused hnone).1
  omega

theorem Ends.exitCode_eq {a b : ApplyRun document} {r : Registry} (ha : a.Ends r) (hb : b.Ends r)
    (hbatch : a.batch? (documentText r) = b.batch? (documentText r)) :
    (a.outcome (documentText r)).exitCode = (b.outcome (documentText r)).exitCode := by
  have hmakes : ∀ r', a.Makes r r' ↔ b.Makes r r' := fun r' => by rw [Makes, Makes, hbatch]
  by_cases hsome : ∃ r', a.Makes r r'
  · obtain ⟨r', hr'⟩ := hsome
    rw [(ha.carriedOut r' hr').1, (hb.carriedOut r' ((hmakes r').mp hr')).1]
  · have hnone : ¬ ∃ r', b.Makes r r' := fun ⟨r', hr'⟩ => hsome ⟨r', (hmakes r').mpr hr'⟩
    rw [(ha.refused hsome).1, (hb.refused hnone).1]

/-- A batch that is carried out leaves the same document in one run or in two. -/
theorem textAfter_of_split {a b c : ApplyRun document} {r : Registry} (h : r.Reachable)
    (hnamed : r.Named) (hsplit : Split a b c (documentText r))
    (hexit : (a.outcome (documentText r)).exitCode = 0) :
    (b.outcome (documentText r)).exitCode = 0 ∧
      (c.outcome (b.leaves (documentText r))).exitCode = 0 ∧
      textAfter (documentText r) [b, c] = textAfter (documentText r) [a] := by
  obtain ⟨⟨hreal, hreal₁, hreal₂⟩, first, second, hbatch, hbatch₁, hbatch₂⟩ := hsplit
  have hends := a.ends h hnamed
  obtain ⟨r', hr'⟩ := hends.makes hexit
  obtain ⟨-, hwritten⟩ := hends.carriedOut r' hr'
  rw [hreal] at hwritten
  obtain ⟨commands, hcommands, hall⟩ := hr'
  obtain rfl : first ++ second = commands := Option.some.inj (hbatch.symm.trans hcommands)
  obtain ⟨r₁, ⟨actions, hfirst⟩, hsecond⟩ := Registry.applyAll_append_iff.mp hall
  obtain ⟨hexit₁, hwritten₁⟩ :=
    (b.ends h hnamed).carriedOut r₁ ⟨first, hbatch₁, actions, hfirst⟩
  rw [hreal₁] at hwritten₁
  have hleaves₁ := leaves_of_written hwritten₁
  rw [hleaves₁] at hbatch₂ ⊢
  obtain ⟨hexit₂, hwritten₂⟩ :=
    (c.ends (h.applyAll hfirst) (hnamed.applyAll hfirst)).carriedOut r' ⟨second, hbatch₂, hsecond⟩
  rw [hreal₂] at hwritten₂
  refine ⟨hexit₁, hexit₂, ?_⟩
  simp only [textAfter, List.foldl_cons, List.foldl_nil, hleaves₁]
  rw [leaves_of_written hwritten₂, leaves_of_written hwritten]

end ApplyRun

/-! ## The document is a fold -/

/-- Take the document that a run writes which makes an empty one, and let any runs
follow that apply command files to it.  The document is then that of the registry
which the accepted commands make of the empty registry; the next run reads it as
this registry, and leaves it alone when it is refused or is a trial.  A trial exits
as the run would, and a batch can be cut in two. -/
theorem document_is_fold {environment : Option String} {arguments : List String} {files : Files}
    {document text : String} {verbosity : Int} {force : Bool}
    (hread : read environment arguments = .ok ⟨document, verbosity, .init force⟩)
    (hwritten : (run environment files arguments).written = some (document, text))
    (runs : List (ApplyRun document)) :
    ∃ r actions,
      Registry.empty.applyAll (ApplyRun.acceptedAll text runs) = .ok (r, actions) ∧
      ApplyRun.textAfter text runs = documentText r ∧
      Registry.parse (documentText r) = .ok r ∧
      (∀ a : ApplyRun document, a.Ends r) ∧
      (∀ a b : ApplyRun document, a.batch? (documentText r) = b.batch? (documentText r) →
        (a.outcome (documentText r)).exitCode = (b.outcome (documentText r)).exitCode) ∧
      ∀ a b c : ApplyRun document, ApplyRun.Split a b c (documentText r) →
        (a.outcome (documentText r)).exitCode = 0 →
          (b.outcome (documentText r)).exitCode = 0 ∧
          (c.outcome (b.leaves (documentText r))).exitCode = 0 ∧
          ApplyRun.textAfter (documentText r) [b, c] =
            ApplyRun.textAfter (documentText r) [a] := by
  obtain rfl := written_of_init hread hwritten
  obtain ⟨r, ⟨actions, hall⟩, htext⟩ :=
    ApplyRun.textAfter_documentText .empty Registry.named_empty runs
  have hr : r.Reachable := Registry.Reachable.empty.applyAll hall
  have hnamed : r.Named := Registry.named_empty.applyAll hall
  have hends : ∀ a : ApplyRun document, a.Ends r := fun a => a.ends hr hnamed
  exact ⟨r, actions, hall, htext, parse_documentText hr hnamed, hends,
    fun a b hbatch => (hends a).exitCode_eq (hends b) hbatch,
    fun a b c hsplit hexit => ApplyRun.textAfter_of_split hr hnamed hsplit hexit⟩

/-- A run that finds these commands in "edits.json" and nothing else beside the
document. -/
def editsRun (commands : String) (dryRun : Bool) : ApplyRun "calendars.json" where
  environment := none
  arguments := ["apply", "edits.json"] ++ if dryRun then ["--dry-run"] else []
  files := fun path => if path = "edits.json" then .file commands else .free
  verbosity := 0
  commands := "edits.json"
  dryRun := dryRun
  reads := by cases dryRun <;> decide +kernel

/-- Half a text, a batch whose second command fails, a batch on trial, and the
same batch in earnest. -/
def editsRuns : List (ApplyRun "calendars.json") :=
  let good := "[\x7b\"command\": \"create_calendar\", \"name\": \"Standard\"\x7d,
    \x7b\"command\": \"derive_calendar\", \"parent\": \"Standard\", \"name\": \"Summer\"\x7d]"
  [editsRun "[\x7b\"command\": \"create_calendar\"" false,
   editsRun "[\x7b\"command\": \"create_calendar\", \"name\": \"Winter\"\x7d,
     \x7b\"command\": \"remove_calendar\", \"calendar\": \"Autumn\"\x7d]" false,
   editsRun good true, editsRun good false]

theorem document_is_fold_edits :
    read none ["init"] = .ok ⟨"calendars.json", 0, .init false⟩ ∧
      (run none (fun _ => .free) ["init"]).written =
        some ("calendars.json", documentText .empty) ∧
      ∃ r, ApplyRun.textAfter (documentText .empty) editsRuns = documentText r ∧
        Registry.parse (documentText r) = .ok r ∧
        r.calendars.rows.map (·.name) = ["Standard", "Summer"] := by
  have hread : read none ["init"] = .ok ⟨"calendars.json", 0, .init false⟩ := by decide +kernel
  have hwritten : (run none (fun _ => .free) ["init"]).written =
      some ("calendars.json", documentText .empty) := by decide +kernel
  obtain ⟨r, actions, hall, htext, hparse, -⟩ := document_is_fold hread hwritten editsRuns
  have haccepted : ApplyRun.acceptedAll (documentText .empty) editsRuns =
      [.createCalendar "Standard", .deriveCalendar "Standard" "Summer"] := by decide +kernel
  have hnames : (Registry.empty.applyAll
      [.createCalendar "Standard", .deriveCalendar "Standard" "Summer"]).map
        (fun made => made.1.calendars.rows.map (·.name)) = .ok ["Standard", "Summer"] := by
    decide +kernel
  rw [← haccepted, hall] at hnames
  exact ⟨hread, hwritten, r, htext, hparse, Except.ok.inj hnames⟩

end WorkingTime.CommandLine
