/-
What is stored of a command is read back as it was.

The kind of a command stands before its fields, which are put aside until it is known;
whatever a command has in its fields is fit for that (`isKeepable_of_mem_members`).  The
fields then fill the record of their kind (`read_members`), so the command is read again,
alone or in a list, from either text that is written for it.  Hence no text is written for
two commands or for two lists of them (`commands_survive_writing`).
-/
import WorkingTime.Proofs.Json.Double
import WorkingTime.Proofs.Json.Reader
import WorkingTime.Proofs.Stored.RoundTrip
import WorkingTime.Stored.Commands

namespace WorkingTime

/-! ## Values of fields -/

theorem EnteredHours.natAbs_lt (h : EnteredHours) : h.value.natAbs < UInt64.size := by
  obtain ⟨hlow, hhigh⟩ := h.inRange
  simp only [limit] at hlow hhigh
  rw [UInt64.size]
  omega

theorem EnteredHours.ofReading_toJson (h : EnteredHours) :
    ofReading h.toJson.toReading = .ok h :=
  Reading.asInt_number (dif_pos h.inRange)

theorem Weekday.ofReading_toJson (w : Weekday) : ofReading w.toJson.toReading = .ok w := by
  have hparse : parse w.name = .ok w := by cases w <;> decide +kernel
  exact Answer.bind_eq_ok_iff.mpr ⟨w.name, rfl, Answer.mapError_eq_ok_iff.mpr hparse⟩

theorem Reading.asNullable_nullable {α : Type} {read : Reading → Except ReadError α}
    {write : α → Json} (hnull : ∀ a, (write a).toReading ≠ .null)
    (hread : ∀ a, read (write a).toReading = .ok a) (o : Option α) :
    (Json.nullable write o).toReading.asNullable read = .ok o := by
  cases o with
  | none => rfl
  | some a => exact asNullable_eq_ok (hnull a) (hread a)

/-! ## Values put aside -/

section Keepable

variable {room : Nat}

theorem EnteredHours.isKeepable_toJson (h : EnteredHours) :
    h.toJson.toReading.isKeepable room = true := by
  show (!(Numeral.ofInt h.value).overflows) = true
  rw [Numeral.overflows_ofInt h.natAbs_lt]
  rfl

theorem Category.isKeepable_toJson (c : Category) (hroom : 0 < room) :
    c.toJson.toReading.isKeepable room = true := by
  simp [toJson, Json.toReading, Json.toMembers, Reading.isKeepable, Reading.membersKeepable, hroom]

theorem Json.isKeepable_nullable {α : Type} {write : α → Json}
    (h : ∀ a, (write a).toReading.isKeepable room = true) (o : Option α) :
    (nullable write o).toReading.isKeepable room = true := by
  cases o with
  | none => rfl
  | some a => exact h a

end Keepable

theorem CommandKind.ofReading_tag (kind : CommandKind) :
    ofReading (Json.text kind.tag).toReading = .ok kind := by
  cases kind <;> rfl

namespace Command

/-- What a command has in its fields can be put aside, with room for one more list or
object. -/
theorem isKeepable_of_mem_members {room : Nat} (hroom : 0 < room) (command : Command) :
    ∀ m ∈ command.members, m.1 ≠ "command" ∧ m.2.toReading.isKeepable room = true := by
  have htext : ∀ s, (Json.text s).toReading.isKeepable room = true := fun _ => rfl
  have hdate : ∀ d : Date, d.toJson.toReading.isKeepable room = true := fun _ => rfl
  have hweekday : ∀ w : Weekday, w.toJson.toReading.isKeepable room = true := fun _ => rfl
  have hhours : ∀ h : EnteredHours, h.toJson.toReading.isKeepable room = true :=
    fun h => h.isKeepable_toJson
  have hrule := Json.isKeepable_nullable hhours
  have hparent := Json.isKeepable_nullable htext
  have hcategory := fun c : Category => c.isKeepable_toJson hroom
  cases command <;>
    simp [members, htext, hdate, hweekday, hhours, hrule, hparent, hcategory]

theorem sort_members {room : Nat} {kind : Option CommandKind} {members : List (String × Json)}
    (h : ∀ m ∈ members, m.1 ≠ "command" ∧ m.2.toReading.isKeepable room = true) :
    sort room kind (Json.toMembers members) = .ok (kind, Json.toMembers members) := by
  induction members with
  | nil => rfl
  | cons m rest ih =>
      obtain ⟨key, value⟩ := m
      obtain ⟨⟨hkey, hkeep⟩, hrest⟩ := List.forall_mem_cons.mp h
      rw [Json.toMembers, sort.eq_def]
      simp only [hkey, hkeep, if_true, if_false, ih hrest]
      rfl

/-! ## Commands -/

theorem read_members (command : Command) :
    command.kind.form.read (Json.object command.members).toReading = .ok command := by
  have hrule : ∀ hours : Option EnteredHours,
      (Json.nullable EnteredHours.toJson hours).toReading.asNullable EnteredHours.ofReading =
        .ok hours :=
    Reading.asNullable_nullable (fun _ => by rintro ⟨⟩) EnteredHours.ofReading_toJson
  have hparent : ∀ parent : Option String,
      (Json.nullable Json.text parent).toReading.asNullable Reading.asText = .ok parent :=
    Reading.asNullable_nullable (fun _ => by rintro ⟨⟩) (fun _ => rfl)
  cases command with
  | createCalendar name =>
      refine Record.read_of_fills { name := some name } ?_ rfl
      exact .cons rfl (by decide) (Field.read_required rfl) .nil
  | deriveCalendar parent name =>
      refine Record.read_of_fills { parent := some parent, name := some name } ?_ rfl
      exact .cons rfl (by decide) (Field.read_required rfl) <|
        .cons rfl (by decide) (Field.read_required rfl) .nil
  | copyCalendar source name =>
      refine Record.read_of_fills { source := some source, name := some name } ?_ rfl
      exact .cons rfl (by decide) (Field.read_required rfl) <|
        .cons rfl (by decide) (Field.read_required rfl) .nil
  | renameCalendar calendar name =>
      refine Record.read_of_fills { calendar := some calendar, name := some name } ?_ rfl
      exact .cons rfl (by decide) (Field.read_required rfl) <|
        .cons rfl (by decide) (Field.read_required rfl) .nil
  | removeCalendar calendar =>
      refine Record.read_of_fills { calendar := some calendar } ?_ rfl
      exact .cons rfl (by decide) (Field.read_required rfl) .nil
  | setHours calendar weekday hours =>
      refine Record.read_of_fills
        { calendar := some calendar, weekday := some weekday, hours := hours } ?_ rfl
      exact .cons rfl (by decide) (Field.read_required rfl) <|
        .cons rfl (by decide) (Field.read_required weekday.ofReading_toJson) <|
        .cons rfl (by decide) (Field.read_optionally (hrule hours)) .nil
  | addException calendar date hours category | updateException calendar date hours category =>
      refine Record.read_of_fills
        { calendar := some calendar, date := some date, hours := some hours,
          category := some category } ?_ rfl
      exact .cons rfl (by decide) (Field.read_required rfl) <|
        .cons rfl (by decide) (Field.read_required date.ofReading_toJson) <|
        .cons rfl (by decide) (Field.read_required hours.ofReading_toJson) <|
        .cons rfl (by decide) (Field.read_required category.ofReading_toJson) .nil
  | removeException calendar date =>
      refine Record.read_of_fills { calendar := some calendar, date := some date } ?_ rfl
      exact .cons rfl (by decide) (Field.read_required rfl) <|
        .cons rfl (by decide) (Field.read_required date.ofReading_toJson) .nil
  | setParent calendar parent =>
      refine Record.read_of_fills { calendar := some calendar, parent := parent } ?_ rfl
      exact .cons rfl (by decide) (Field.read_required rfl) <|
        .cons rfl (by decide) (Field.read_optionally (hparent parent)) .nil
  | newVersion calendar effectiveFrom =>
      refine Record.read_of_fills
        { calendar := some calendar, effectiveFrom := some effectiveFrom } ?_ rfl
      exact .cons rfl (by decide) (Field.read_required rfl) <|
        .cons rfl (by decide) (Field.read_required effectiveFrom.ofReading_toJson) .nil
  | setExpiringDate calendar date reference | setValidFrom calendar date reference =>
      refine Record.read_of_fills
        { calendar := some calendar, date := some date, reference := some reference } ?_ rfl
      exact .cons rfl (by decide) (Field.read_required rfl) <|
        .cons rfl (by decide) (Field.read_required date.ofReading_toJson) <|
        .cons rfl (by decide) (Field.read_required reference.ofReading_toJson) .nil

/-- A stored command is read back inside as many lists as leave room for its fields. -/
theorem ofReading_toJson {depth : Nat} (hdepth : depth + 1 < depthLimit) (command : Command) :
    ofReading depth command.toJson.toReading = .ok command := by
  have hroom : 0 < depthLimit - depth - 1 := by omega
  have hsort : sort (depthLimit - depth - 1) none
      ((some "command", (Json.text command.kind.tag).toReading) ::
        Json.toMembers command.members) =
      .ok (some command.kind, Json.toMembers command.members) := by
    rw [sort, if_pos rfl, command.kind.ofReading_tag]
    exact sort_members (command.isKeepable_of_mem_members hroom)
  rw [toJson, Json.toReading, Json.toMembers, ofReading, hsort]
  exact command.read_members

def listToJson (commands : List Command) : Json :=
  .list (commands.map toJson)

theorem listOfReading_listToJson (commands : List Command) :
    listOfReading (listToJson commands).toReading = .ok commands :=
  Reading.asList_list fun command _ => command.ofReading_toJson (by decide)

/-! ## Texts -/

def parse (text : String) : Except ReadError Command :=
  JsonText.decode (ofReading 0) text

theorem parse_of_mem_texts {command : Command} {text : String}
    (h : text ∈ command.toJson.texts) : parse text = .ok command := by
  rw [parse, JsonText.decode_of_mem_texts _ h]
  exact command.ofReading_toJson (by decide)

theorem parseList_of_mem_texts {commands : List Command} {text : String}
    (h : text ∈ (listToJson commands).texts) : parseList text = .ok commands := by
  rw [parseList, JsonText.decode_of_mem_texts _ h]
  exact listOfReading_listToJson commands

/-- Every command, and every list of commands, is read back from what is written for it, in
either layout.  So nothing is written for two commands, nor for two lists, and to carry out
what was read is to carry out what was written. -/
theorem commands_survive_writing :
    (∀ command : Command, ∀ text ∈ command.toJson.texts,
      parse text = .ok command ∧ ∀ r : Registry, r.apply <$> parse text = .ok (r.apply command)) ∧
    (∀ commands, ∀ text ∈ (listToJson commands).texts,
      parseList text = .ok commands ∧
        ∀ r : Registry, r.applyAll <$> parseList text = .ok (r.applyAll commands)) ∧
    (∀ a b : Command, ∀ text ∈ a.toJson.texts, text ∈ b.toJson.texts → a = b) ∧
    (∀ as bs, ∀ text ∈ (listToJson as).texts, text ∈ (listToJson bs).texts → as = bs) := by
  refine ⟨?_, ?_, ?_, ?_⟩
  · intro command text htext
    rw [parse_of_mem_texts htext]
    exact ⟨rfl, fun _ => rfl⟩
  · intro commands text htext
    rw [parseList_of_mem_texts htext]
    exact ⟨rfl, fun _ => rfl⟩
  · intro a b text ha hb
    exact Except.ok.inj ((parse_of_mem_texts ha).symm.trans (parse_of_mem_texts hb))
  · intro as bs text has hbs
    exact Except.ok.inj ((parseList_of_mem_texts has).symm.trans (parseList_of_mem_texts hbs))

/-- A command with unusual characters in its names, a date in a negative year and the least
number of hours. -/
def unusual : Command :=
  .addException "Ö\u0000\\\u2028" ⟨58, by decide⟩ ⟨-9223372036854775808, by decide⟩
    ⟨"\t", "", true⟩

/-- The unusual command is read back, also in a list with one that takes a parent away, and
its text is not the text of the command that takes its exception out. -/
theorem commands_survive_writing_unusual :
    parse unusual.toJson.pretty = .ok unusual ∧
      parseList (listToJson [unusual, .setParent "A" none]).compact =
        .ok [unusual, .setParent "A" none] ∧
      unusual.toJson.compact ∉ (removeException "Ö\u0000\\\u2028" ⟨58, by decide⟩).toJson.texts := by
  obtain ⟨hone, hlist, hdistinct, -⟩ := commands_survive_writing
  refine ⟨(hone unusual _ ?_).1, (hlist [unusual, .setParent "A" none] _ ?_).1, ?_⟩
  · exact List.mem_cons_of_mem _ List.mem_cons_self
  · exact List.mem_cons_self
  · intro hshared
    have hsame := hdistinct unusual _ _ List.mem_cons_self hshared
    cases hsame

end Command

end WorkingTime
