/-
What is stored of the exceptions of a version is a set of entries with distinct dates.

A list of exceptions is read entry by entry, and the table it makes has these entries for
rows, in whatever order they came (`ExceptionDay.tabulate_eq_ok_iff`); it is refused at the
first entry whose date an earlier one has.  A version is read with any list of exceptions
as that list is read, since no other field sees them (`Version.Gap.read_eq`).
`Version.stored_exceptions_form_set` puts this together and adds what is written for a
version, which lists the exceptions in the order of the calendar.
-/
import WorkingTime.Proofs.Date.Order
import WorkingTime.Proofs.Json.Reader
import WorkingTime.Proofs.Stored.RoundTrip
import Mathlib.Data.List.Nodup
import Mathlib.Data.List.Perm.Basic

namespace WorkingTime

theorem Date.exists_text_of_ofReading {value : Reading} {d : Date} (h : ofReading value = .ok d) :
    ∃ text, value.asText = .ok text ∧ parse text = .ok d := by
  obtain ⟨text, htext, hparse⟩ := Answer.bind_eq_ok_iff.mp h
  exact ⟨text, htext, Answer.mapError_eq_ok_iff.mp hparse⟩

namespace ExceptionDay

/-! ## The text of a date -/

/-- The text that an entry has for its date: under the first key `date` of an object, or in
front of a list. -/
def dateText? : Reading → Option String
  | .object members _ =>
      (members.find? (·.1 == some "date")).bind fun member => member.2.asText.toOption
  | .list (value :: _) _ => value.asText.toOption
  | _ => none

/-- Two entries whose dates are written alike, but for blanks and a plus. -/
def SameDateText (item item' : Reading) : Prop :=
  ∃ text text', dateText? item = some text ∧ dateText? item' = some text' ∧
    Date.bareText text = Date.bareText text'

theorem date_of_build {slots : Slots} {e : ExceptionDay} (h : form.build slots = .ok e) :
    slots.date = some e.date := by
  simp only [form, Answer.bind_eq_ok_iff, Answer.pure_eq_ok_iff] at h
  obtain ⟨date, hdate, -, -, -, -, rfl⟩ := h
  cases hslot : slots.date with
  | none => simp [Field.slot, hslot] at hdate
  | some d =>
      rw [hslot] at hdate
      cases hdate
      rfl

theorem date_of_read {field : Field Slots} (hmem : field ∈ form.fields) (hname : field.name ≠ "date")
    {value : Reading} {slots slots' : Slots} (h : field.read value slots = .ok slots') :
    slots'.date = slots.date := by
  simp only [form, List.mem_cons, List.not_mem_nil, or_false] at hmem
  rcases hmem with rfl | rfl | rfl
  · exact absurd rfl hname
  all_goals
    obtain ⟨_, -, rfl⟩ := Answer.map_eq_ok_iff.mp h
    rfl

theorem exists_dateText {item : Reading} {e : ExceptionDay} (h : ofReading item = .ok e) :
    ∃ text, dateText? item = some text ∧ Date.parse text = .ok e.date := by
  rw [ofReading, Record.read.eq_def] at h
  split at h
  next members closed =>
    obtain ⟨slots, hslots, -, hbuild⟩ := Record.ofMembers_eq_ok_iff.mp h
    obtain ⟨value, hfind, hread⟩ := Record.find?_of_readMembers Slots.date rfl
      (fun _ _ => rfl) (fun field hmem hname _ _ _ => date_of_read hmem hname) hslots rfl
      (date_of_build hbuild)
    obtain ⟨text, htext, hparse⟩ := Date.exists_text_of_ofReading hread
    refine ⟨text, ?_, hparse⟩
    rw [dateText?, hfind]
    exact Answer.toOption_eq_some_iff.mpr htext
  next items closed =>
    obtain ⟨slots, hslots, -, hbuild⟩ := Record.ofItems_eq_ok_iff.mp h
    cases items with
    | nil => cases hslots
    | cons value rest =>
        obtain ⟨slots₁, hfirst, hrest⟩ := Answer.bind_eq_ok_iff.mp hslots
        obtain ⟨d, hread, rfl⟩ := Answer.map_eq_ok_iff.mp hfirst
        obtain ⟨text, htext, hparse⟩ := Date.exists_text_of_ofReading hread
        have hkept : slots.date = some d := by
          refine Record.readItems_invariant (P := fun slots => slots.date = some d) ?_ hrest rfl
          intro field hmem value slots slots' hread hdate
          have hname : field.name ≠ "date" := by
            simp only [List.mem_cons, List.not_mem_nil, or_false] at hmem
            rcases hmem with rfl | rfl <;> decide
          exact (date_of_read (List.mem_cons_of_mem _ hmem) hname hread).trans hdate
        rw [date_of_build hbuild, Option.some.injEq] at hkept
        exact ⟨text, Answer.toOption_eq_some_iff.mpr htext, hkept ▸ hparse⟩
  · cases h

theorem SameDateText.date_eq {item item' : Reading} {e e' : ExceptionDay}
    (hsame : SameDateText item item') (h : ofReading item = .ok e) (h' : ofReading item' = .ok e') :
    e.date = e'.date := by
  obtain ⟨text, text', htext, htext', hbare⟩ := hsame
  obtain ⟨_, hdate, hparse⟩ := exists_dateText h
  obtain ⟨_, hdate', hparse'⟩ := exists_dateText h'
  obtain rfl := Option.some.inj (htext.symm.trans hdate)
  obtain rfl := Option.some.inj (htext'.symm.trans hdate')
  exact Date.eq_of_bareText_eq hparse hparse' hbare

/-! ## Tables of distinct dates -/

/-- The table with one more entry, on a date that has none. -/
def addDistinct (t : Table ExceptionDay) (e : ExceptionDay) :
    Except ReadError (Table ExceptionDay) :=
  if t.contains e.date.index then .error (.repeatedException e.date) else .ok (t.insert e)

/-- The first entry whose date an earlier one has. -/
def FirstRepeated (days : List ExceptionDay) (e : ExceptionDay) : Prop :=
  ∃ before after, days = before ++ e :: after ∧
    (before.map (·.date)).Nodup ∧ e.date ∈ before.map (·.date)

variable {days days' : List ExceptionDay} {t t₀ t₁ : Table ExceptionDay} {e : ExceptionDay}

theorem contains_date_iff : t.contains e.date.index = true ↔ e.date ∈ t.rows.map (·.date) := by
  rw [Table.contains_iff, List.mem_map]
  exact exists_congr fun a => and_congr_right fun _ => ⟨Date.ext, congrArg Date.index⟩

theorem nodup_dates (t : Table ExceptionDay) : (t.rows.map (·.date)).Nodup := by
  refine List.pairwise_map.mpr (t.ascending.imp ?_)
  intro a b hlt heq
  exact Nat.ne_of_lt hlt (congrArg Date.index heq)

theorem perm_of_addDistinct (h : addDistinct t₀ e = .ok t₁) : t₁.rows.Perm (e :: t₀.rows) := by
  rw [addDistinct] at h
  split at h
  · cases h
  next hfree =>
    cases h
    refine Table.perm_insert_of_fresh ?_
    intro b hb heq
    exact hfree (Table.contains_iff.mpr ⟨b, hb, heq⟩)

theorem perm_of_foldlM_addDistinct (h : days.foldlM addDistinct t₀ = .ok t) :
    t.rows.Perm (t₀.rows ++ days) := by
  induction days generalizing t₀ with
  | nil =>
      cases h
      rw [List.append_nil]
  | cons e days ih =>
      rw [List.foldlM_cons, Answer.bind_eq_ok_iff] at h
      obtain ⟨t₁, hstep, h⟩ := h
      have hadded : (t₁.rows ++ days).Perm (e :: t₀.rows ++ days) :=
        (perm_of_addDistinct hstep).append_right days
      exact (ih h).trans (hadded.trans List.perm_middle.symm)

theorem perm_of_tabulate (h : tabulate days = .ok t) : t.rows.Perm days :=
  perm_of_foldlM_addDistinct h

theorem firstRepeated_of_tabulate {error : ReadError} (h : tabulate days = .error error) :
    ∃ e, FirstRepeated days e ∧ error = .repeatedException e.date := by
  obtain ⟨before, e, after, t, hdays, hbefore, hstep⟩ := Answer.exists_of_foldlM_eq_error h
  have hperm : t.rows.Perm before := perm_of_tabulate hbefore
  have hdates := hperm.map (·.date)
  split at hstep
  next htaken =>
    refine ⟨e, ⟨before, after, hdays, hdates.nodup_iff.mp (nodup_dates t), ?_⟩, ?_⟩
    · exact hdates.mem_iff.mp (contains_date_iff.mp htaken)
    · exact (Except.error.inj hstep).symm
  · cases hstep

theorem FirstRepeated.not_nodup (h : FirstRepeated days e) : ¬ (days.map (·.date)).Nodup := by
  obtain ⟨before, after, rfl, -, hmem⟩ := h
  rw [List.map_append, List.map_cons]
  intro hnodup
  exact (List.nodup_append.mp hnodup).2.2 _ hmem _ List.mem_cons_self rfl

theorem exists_tabulate_iff : (∃ t, tabulate days = .ok t) ↔ (days.map (·.date)).Nodup := by
  constructor
  · rintro ⟨t, h⟩
    exact ((perm_of_tabulate h).map (·.date)).nodup_iff.mp (nodup_dates t)
  · intro hnodup
    cases h : tabulate days with
    | ok t => exact ⟨t, rfl⟩
    | error error =>
        obtain ⟨e, hrepeated, -⟩ := firstRepeated_of_tabulate h
        exact absurd hnodup hrepeated.not_nodup

theorem tabulate_eq_ok_iff : tabulate days = .ok t ↔ t.rows.Perm days := by
  refine ⟨perm_of_tabulate, fun hperm => ?_⟩
  have hnodup := (hperm.map (·.date)).nodup_iff.mp (nodup_dates t)
  obtain ⟨t', h⟩ := exists_tabulate_iff.mpr hnodup
  rw [h, Table.eq_of_perm ((perm_of_tabulate h).trans hperm.symm)]

theorem tabulate_of_perm (hperm : days'.Perm days) :
    (tabulate days').toOption = (tabulate days).toOption := by
  refine Option.ext ?_
  intro t
  simp only [Answer.toOption_eq_some_iff, tabulate_eq_ok_iff]
  exact ⟨fun h => h.trans hperm, fun h => h.trans hperm.symm⟩

/-! ## Lists of entries -/

/-- Entries that are read, one by one. -/
abbrev Reads (items : List Reading) (days : List ExceptionDay) : Prop :=
  List.Forall₂ (fun item e => ofReading item = .ok e) items days

variable {items items' : List Reading}

theorem tableOfReading_list (h : Reads items days) :
    tableOfReading (.list items true) = tabulate days := by
  rw [tableOfReading, Reading.asList, Answer.mapM_eq_ok_iff.mpr h]
  rfl

theorem Reads.perm (h : Reads items days) (hperm : items'.Perm items) :
    ∃ days', Reads items' days' ∧ days'.Perm days :=
  List.perm_comp_forall₂ hperm h

theorem Reads.sublist (h : Reads items days) (hsub : items'.Sublist items) :
    ∃ days', Reads items' days' ∧ days'.Sublist days := by
  induction hsub generalizing days with
  | slnil => exact ⟨[], .nil, List.nil_sublist _⟩
  | cons item _ ih =>
      cases h with
      | cons _ hrest =>
          obtain ⟨days', hreads, hsub⟩ := ih hrest
          exact ⟨days', hreads, hsub.cons _⟩
  | cons_cons item _ ih =>
      cases h with
      | cons hitem hrest =>
          obtain ⟨days', hreads, hsub⟩ := ih hrest
          exact ⟨_, .cons hitem hreads, hsub.cons_cons _⟩

/-- Two entries whose dates are written alike have one date. -/
theorem Reads.not_nodup {item item' : Reading} (h : Reads items days)
    (hpair : [item, item'].Sublist items) (hsame : SameDateText item item') :
    ¬ (days.map (·.date)).Nodup := by
  obtain ⟨days', hreads, hsub⟩ := h.sublist hpair
  obtain _ | ⟨hitem, _ | ⟨hitem', _ | _⟩⟩ := hreads
  have hdates := hsub.map (·.date)
  rw [List.map_cons, List.map_cons, List.map_nil, hsame.date_eq hitem hitem'] at hdates
  exact fun hnodup => List.nodup_iff_sublist.mp hnodup _ hdates

end ExceptionDay

/-! ## Versions -/

namespace Version

/-- What is stored of a version besides its exceptions, with the place where these stand. -/
inductive Gap where
  /-- A member of an object. -/
  | member (before after : List (Option String × Reading))
  /-- The item of a list after the hours. -/
  | item (hours : Reading) (after : List Reading)

namespace Gap

/-- The stored version with this value in the place of the exceptions. -/
def fill (value : Reading) : Gap → Reading
  | member before after => .object (before ++ (some "exceptions", value) :: after) true
  | item hours after => .list (hours :: value :: after) true

def read (gap : Gap) (items : List Reading) : Except ReadError Version :=
  ofReading (gap.fill (.list items true))

end Gap

def withExceptions (v : Version) (t : Table ExceptionDay) : Version :=
  { v with exceptions := t }

theorem read_withExceptions {field : Field Version} (hmem : field ∈ form.fields)
    (hname : field.name ≠ "exceptions") (value : Reading) (v : Version) (t : Table ExceptionDay) :
    field.read value (v.withExceptions t) = (·.withExceptions t) <$> field.read value v := by
  simp only [form, List.mem_cons, List.not_mem_nil, or_false] at hmem
  rcases hmem with rfl | rfl | rfl | rfl | rfl
  case inr.inl => exact absurd rfl hname
  all_goals
    refine Field.read_map (g := fun v => v.withExceptions t) ?_ value v
    exact fun _ _ => rfl

theorem ofReading_object (members : List (Option String × Reading)) :
    ofReading (.object members true) = Record.readMembers form.fields [] form.blank members := by
  rw [ofReading, Record.read, Record.ofMembers]
  cases Record.readMembers form.fields [] form.blank members <;> rfl

theorem ofReading_list (items : List Reading) :
    ofReading (.list items true) = Record.readItems form.fields form.blank items := by
  rw [ofReading, Record.read, Record.ofItems]
  cases Record.readItems form.fields form.blank items <;> rfl

/-- A version that is read without exceptions is read with any list of them as that list is
read. -/
theorem Gap.read_eq {gap : Gap} {v : Version} (h : gap.read [] = .ok v) (items : List Reading) :
    gap.read items = v.withExceptions <$> ExceptionDay.tableOfReading (.list items true) := by
  have hempty : ExceptionDay.tableOfReading (.list [] true) = .ok .empty := rfl
  cases gap with
  | member before after =>
      rw [read, fill, ofReading_object] at h ⊢
      exact Record.readMembers_otherValue withExceptions rfl (fun _ _ _ => rfl)
        (fun field hmem hname => read_withExceptions hmem hname) hempty _ h
  | item hours after =>
      rw [read, fill, ofReading_list] at h ⊢
      have hother : ∀ field ∈ form.fields.drop 2, ∀ value v t,
          field.read value (v.withExceptions t) = (·.withExceptions t) <$> field.read value v := by
        intro field hmem
        refine read_withExceptions (List.mem_of_mem_drop hmem) ?_
        simp only [form, List.drop_succ_cons, List.drop_zero, List.mem_cons, List.not_mem_nil,
          or_false] at hmem
        rcases hmem with rfl | rfl | rfl <;> decide
      have hlength : [hours].length = (form.fields.take 1).length := rfl
      exact Record.readItems_otherValue withExceptions (fun _ _ _ => rfl) hother hempty _ hlength h

/-! ## What is written -/

/-- What is stored of the exceptions of a version. -/
def storedExceptions (v : Version) : Json :=
  .list (v.exceptions.rows.map ExceptionDay.toJson)

/-- The version has these exceptions, each of them once, and what is written for it lists
them in the order of the calendar and is read as the version it was written for. -/
structure KeepsExceptions (v : Version) (days : List ExceptionDay) : Prop where
  rows_perm : v.exceptions.rows.Perm days
  written : ∃ before after,
    v.toJson = .object (before ++ ("exceptions", v.storedExceptions) :: after)
  ascending : v.exceptions.rows.Pairwise fun a b => a.date.civil.Before b.date.civil
  reread : ExceptionDay.tableOfReading v.storedExceptions.toReading = .ok v.exceptions
  reread_text : ∀ text ∈ v.toJson.texts, JsonText.decode ofReading text = .ok v

theorem keepsExceptions {v : Version} {days : List ExceptionDay}
    (h : v.exceptions.rows.Perm days) : v.KeepsExceptions days where
  rows_perm := h
  written := ⟨[("hours", v.week.toJson)], _, rfl⟩
  ascending := v.exceptions.ascending.imp Date.lt_iff_before.mp
  reread := ExceptionDay.tableOfReading_rows v.exceptions
  reread_text := fun _ htext =>
    (JsonText.decode_of_mem_texts ofReading htext).trans v.ofReading_toJson

/-- Entries make a table of exceptions exactly when the dates read from their texts are
distinct; texts that differ in blanks around the date and in a plus are texts of one date,
and the refusal names the first date that is repeated.  The order of the entries does not
matter, none is lost or altered, and a version with the table is written with its exceptions
in the order of the calendar and read as the same version.  This is how entries are read
inside a version, whatever else the version has. -/
theorem stored_exceptions_form_set {items : List Reading} {days : List ExceptionDay}
    (hreads : ExceptionDay.Reads items days) :
    List.Forall₂ (fun item e => ∃ text, ExceptionDay.dateText? item = some text ∧
      Date.parse text = .ok e.date) items days ∧
    ((∃ t, ExceptionDay.tableOfReading (.list items true) = .ok t) ↔
      (days.map (·.date)).Nodup) ∧
    (∀ item item', [item, item'].Sublist items → ExceptionDay.SameDateText item item' →
      ¬ ∃ t, ExceptionDay.tableOfReading (.list items true) = .ok t) ∧
    (∀ error, ExceptionDay.tableOfReading (.list items true) = .error error →
      ∃ e, ExceptionDay.FirstRepeated days e ∧ error = .repeatedException e.date) ∧
    (∀ items', items'.Perm items →
      (ExceptionDay.tableOfReading (.list items' true)).toOption =
        (ExceptionDay.tableOfReading (.list items true)).toOption) ∧
    (∀ t, ExceptionDay.tableOfReading (.list items true) = .ok t →
      ∀ v : Version, (v.withExceptions t).KeepsExceptions days) ∧
    ∀ (gap : Gap) (v : Version), gap.read [] = .ok v →
      gap.read items = v.withExceptions <$> ExceptionDay.tableOfReading (.list items true) := by
  have htable := ExceptionDay.tableOfReading_list hreads
  have hdistinct : (∃ t, ExceptionDay.tableOfReading (.list items true) = .ok t) ↔
      (days.map (·.date)).Nodup := by
    rw [htable]
    exact ExceptionDay.exists_tabulate_iff
  refine ⟨hreads.imp fun _ _ => ExceptionDay.exists_dateText, hdistinct, ?_, ?_, ?_, ?_, ?_⟩
  · intro item item' hpair hsame hok
    exact hreads.not_nodup hpair hsame (hdistinct.mp hok)
  · intro error herror
    exact ExceptionDay.firstRepeated_of_tabulate (htable ▸ herror)
  · intro items' hperm
    obtain ⟨days', hreads', hdays⟩ := hreads.perm hperm
    rw [htable, ExceptionDay.tableOfReading_list hreads']
    exact ExceptionDay.tabulate_of_perm hdays
  · intro t ht v
    exact keepsExceptions (ExceptionDay.perm_of_tabulate (htable ▸ ht))
  · intro gap v hgap
    exact gap.read_eq hgap items

/-- A version that starts in 2026, with room for its exceptions. -/
def winterGap : Gap :=
  .member [(some "note", .null)] [(some "valid_from", .text (some "+2026-01-01 "))]

/-- An entry with this text for its date and four hours, as a list of its three fields. -/
def winterEntry (date : String) : Reading :=
  .list [.text (some date), (Json.number 4).toReading,
    (Category.toJson ⟨"Holiday", "red", false⟩).toReading] true

/-- The exception that `winterEntry` stands for, with its hours. -/
def winterDay (hours : Hours) (date : Date) : ExceptionDay :=
  ⟨date, hours, ⟨"Holiday", "red", false⟩⟩

/-- Three dates out of order, one of them in a negative year, are the exceptions of a
version; a second text of the first date is refused. -/
theorem stored_exceptions_form_set_winter :
    (∃ v, winterGap.read (["\t2026-12-25", "+2026-12-24", "-0044-03-15"].map winterEntry) = .ok v ∧
      v.KeepsExceptions (List.map (winterDay ⟨4, by decide⟩)
        [⟨4392399, by decide⟩, ⟨4392398, by decide⟩, ⟨3636062, by decide⟩])) ∧
    ¬ ∃ t, ExceptionDay.tableOfReading
      (.list (["\t2026-12-25", "+2026-12-24", "+2026-12-25 "].map winterEntry) true) = .ok t := by
  constructor
  · have hreads : ExceptionDay.Reads
        (["\t2026-12-25", "+2026-12-24", "-0044-03-15"].map winterEntry)
        (List.map (winterDay ⟨4, by decide⟩)
          [⟨4392399, by decide⟩, ⟨4392398, by decide⟩, ⟨3636062, by decide⟩]) :=
      .cons (by decide +kernel) (.cons (by decide +kernel) (.cons (by decide +kernel) .nil))
    have hgap : winterGap.read [] = .ok { validFrom := some ⟨4392041, by decide⟩ } := by
      decide +kernel
    obtain ⟨-, hdistinct, -, -, -, hkeeps, hversion⟩ := stored_exceptions_form_set hreads
    obtain ⟨t, ht⟩ := hdistinct.mpr (by decide)
    refine ⟨_, ?_, hkeeps t ht { validFrom := some ⟨4392041, by decide⟩ }⟩
    rw [hversion winterGap _ hgap, ht]
    rfl
  · have hreads : ExceptionDay.Reads
        (["\t2026-12-25", "+2026-12-24", "+2026-12-25 "].map winterEntry)
        (List.map (winterDay ⟨4, by decide⟩)
          [⟨4392399, by decide⟩, ⟨4392398, by decide⟩, ⟨4392399, by decide⟩]) :=
      .cons (by decide +kernel) (.cons (by decide +kernel) (.cons (by decide +kernel) .nil))
    obtain ⟨-, -, hsame, -⟩ := stored_exceptions_form_set hreads
    refine hsame (winterEntry "\t2026-12-25") (winterEntry "+2026-12-25 ") ?_ ?_
    · exact .cons_cons _ (.cons _ (.cons_cons _ .slnil))
    · exact ⟨_, _, rfl, rfl, by decide⟩

end Version

end WorkingTime
