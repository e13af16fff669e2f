/-
Saving a registry and loading it again.

A document is not taken as it is: names are trimmed and compared, ids are
compared, and parents are followed before there is a registry.  What operations
make passes all of this unaltered, since names, once trimmed, stay so and stay
distinct (`Named.change`), and the rest is well-formedness.  So a registry made
by operations is what its document says (`parse_saved`).

A registry that was loaded may have names with blanks around them, and its
calendars are written in the order of their ids, whatever their order was.  Then
one check may go wrong: that a calendar does not have the name which that of a
later one stands for (`parse_resaved`).
-/
import WorkingTime.Proofs.Json.Reader
import WorkingTime.Proofs.Registry.Names
import WorkingTime.Proofs.Stored.RoundTrip

namespace WorkingTime.Registry

/-! ## Names and ids -/

/-- What operations keep up besides: calendars have distinct names without
blanks around them, and ids begin past zero. -/
structure Named (r : Registry) : Prop where
  names : ∀ c ∈ r.calendars.rows, IsName c.name
  distinct : ∀ a ∈ r.calendars.rows, ∀ b ∈ r.calendars.rows, a.name = b.name → a.id = b.id
  positive : 0 < r.nextId.value

theorem named_empty : empty.Named where
  names _ hc := absurd hc List.not_mem_nil
  distinct _ ha := absurd ha List.not_mem_nil
  positive := Nat.one_pos

theorem Named.labelled {r : Registry} (h : r.Named) : r.Labelled where
  visible c hc := (h.names c hc).visible
  distinct a ha b hb _ hab := h.distinct a ha b hb hab

theorem positive_of_change {r r' : Registry} (h : 0 < r.nextId.value) (hchange : Change r r') :
    0 < r'.nextId.value := by
  cases hchange with
  | @added _ _ next _ _ _ hnext =>
      have hvalue := CalendarId.next?_eq_some_iff.mp hnext
      show 0 < next.value
      omega
  | renamed _ _ _ => exact h
  | removed _ _ => exact h
  | reparented _ _ => exact h
  | edited _ _ => exact h

theorem Named.change {r r' : Registry} (h : r.Named) (hchange : Change r r') : r'.Named := by
  have hnames : ∀ c ∈ r'.calendars.rows, IsName c.name := by
    intro c' hc'
    rcases names_of_change hchange c' hc' with hname | ⟨c, hc, -, hname⟩
    · exact hname
    · exact hname ▸ h.names c hc
  have hlabelled := h.labelled.change hchange
  exact ⟨hnames, fun a ha b hb => hlabelled.distinct a ha b hb (hnames a ha),
    positive_of_change h.positive hchange⟩

theorem Named.applyAll {r r' : Registry} (h : r.Named) {commands : List Command}
    {actions : List Action} (happly : r.applyAll commands = .ok (r', actions)) : r'.Named :=
  invariant_of_changes (fun _ _ => Named.change) h (changes_of_applyAll happly)

theorem named_after (ops : List Operation) : (empty.after ops).Named :=
  invariant_of_changes (fun _ _ => Named.change) named_empty (changes_of_after ops empty)

theorem positive_of_ofCalendars {cs : List Calendar} {nextId : CalendarId} {r : Registry}
    (h : ofCalendars cs nextId = .ok r) : 0 < r.nextId.value := by
  obtain ⟨named, -, hr, -⟩ := ofCalendars_eq_ok_iff.mp h
  obtain ⟨free, hfree, rfl⟩ := reserveIds_eq_ok_iff.mp hr
  have hvalue := CalendarId.next?_eq_some_iff.mp hfree
  show 0 < (nextId.max free).value
  rw [CalendarId.max_value]
  omega

theorem Reachable.positive {r : Registry} (h : r.Reachable) : 0 < r.nextId.value := by
  refine h.induction Nat.one_pos (fun _ _ _ _ hr => positive_of_ofCalendars hr) ?_
    fun _ _ hr hchange => positive_of_change hr hchange
  intro value r hr
  obtain ⟨_, -, hmake⟩ := ofCalendars_of_ofReading hr
  exact positive_of_ofCalendars hmake

/-! ## Making a registry from its own calendars -/

theorem Labelled.namesApart {r : Registry} (h : r.Labelled)
    (htrim : ∀ c ∈ r.calendars.rows, Text.trimmed c.name = c.name) :
    NamesApart r.calendars.rows := by
  refine r.calendars.ascending.imp_of_mem ?_
  intro a b ha hb hab hname
  have hproper : IsName a.name :=
    ⟨htrim a ha, fun hempty => h.visible a ha ((htrim a ha).trans hempty)⟩
  have hid := h.distinct a ha b hb hproper (hname.trans (htrim b hb))
  exact Nat.ne_of_lt hab (key_eq_iff.mpr hid)

/-- Calendars that come after those admitted so far, in the order of their ids,
with names that are not blank. -/
structure Following (r : Registry) (cs : List Calendar) : Prop where
  ascending : (r.calendars.rows ++ cs).Pairwise fun a b => Keyed.key a < Keyed.key b
  visible : ∀ c ∈ cs, Text.trimmed c.name ≠ ""

theorem Labelled.following {r : Registry} (h : r.Labelled) : Following empty r.calendars.rows where
  ascending := r.calendars.ascending
  visible := h.visible

theorem Following.key_lt {r : Registry} {c : Calendar} {cs : List Calendar}
    (h : Following r (c :: cs)) : ∀ k ∈ r.calendars.rows, Keyed.key k < Keyed.key c := by
  intro k hk
  exact (List.pairwise_append.mp h.ascending).2.2 k hk c List.mem_cons_self

theorem Following.rows_put {r : Registry} {c : Calendar} {cs : List Calendar}
    (h : Following r (c :: cs)) : (r.put c).calendars.rows = r.calendars.rows ++ [c] :=
  Table.rows_insert_of_lt h.key_lt

theorem Following.rows_put_append {r : Registry} {c : Calendar} {cs : List Calendar}
    (h : Following r (c :: cs)) : (r.put c).calendars.rows ++ cs = r.calendars.rows ++ c :: cs := by
  rw [h.rows_put, List.append_assoc]
  rfl

/-- The next calendar is admitted when no calendar before it has the name that
its own stands for. -/
theorem Following.admit {r : Registry} {c : Calendar} {cs : List Calendar}
    (h : Following r (c :: cs)) (hfree : ∀ k ∈ r.calendars.rows, k.name ≠ Text.trimmed c.name) :
    r.admitStored c = .ok (r.put c) ∧ Following (r.put c) cs := by
  have hid : ∀ k ∈ r.calendars.rows, k.id ≠ c.id := by
    intro k hk heq
    exact Nat.ne_of_lt (h.key_lt k hk) (key_eq_iff.mpr heq)
  exact ⟨admitStored_eq_ok_iff.mpr ⟨h.visible c List.mem_cons_self, hfree, hid, rfl⟩,
    h.rows_put_append ▸ h.ascending, fun k hk => h.visible k (List.mem_cons_of_mem c hk)⟩

theorem admitStored_of_clash {r : Registry} {c : Calendar} (hvisible : Text.trimmed c.name ≠ "")
    (hclash : ∃ k ∈ r.calendars.rows, k.name = Text.trimmed c.name) :
    r.admitStored c = .error (.duplicateName (Text.trimmed c.name)) := by
  have hname : checkName c.name = .ok (Text.trimmed c.name) :=
    checkName_eq_ok_iff.mpr ⟨rfl, hvisible⟩
  rw [admitStored, hname]
  show (if r.hasName (Text.trimmed c.name) = true then throw _ else _) = _
  rw [if_pos (hasName_iff.mpr hclash)]
  rfl

/-- No calendar that was stored is refused, and none is altered. -/
theorem foldlM_admitStored_rows {r : Registry} (h : r.Labelled)
    (hapart : NamesApart r.calendars.rows) :
    r.calendars.rows.foldlM admitStored empty = .ok { empty with calendars := r.calendars } := by
  have hfold : r.calendars.rows.foldl put empty = { empty with calendars := r.calendars } := by
    rw [foldl_put_calendars]
    exact congrArg (fun t => { empty with calendars := t }) (Table.foldl_insert_rows r.calendars)
  exact foldlM_admitStored_eq_ok_iff.mpr ⟨h.visible, hapart, nodup_map_id r, hfold.symm⟩

/-- The first calendar whose name stands for that of one before it is refused. -/
theorem foldlM_admitStored_of_clash {cs : List Calendar} {r : Registry} (h : Following r cs)
    (hapart : NamesApart r.calendars.rows) (hclash : ¬ NamesApart (r.calendars.rows ++ cs)) :
    ∃ b ∈ cs, (∃ a ∈ r.calendars.rows ++ cs, a.id.value < b.id.value ∧
        a.name = Text.trimmed b.name) ∧
      cs.foldlM admitStored r = .error (.duplicateName (Text.trimmed b.name)) := by
  induction cs generalizing r with
  | nil => exact absurd hapart (by simpa using hclash)
  | cons c cs ih =>
      by_cases hc : ∃ k ∈ r.calendars.rows, k.name = Text.trimmed c.name
      · obtain ⟨a, ha, hname⟩ := hc
        refine ⟨c, List.mem_cons_self, ⟨a, List.mem_append_left _ ha, h.key_lt a ha, hname⟩, ?_⟩
        rw [List.foldlM_cons,
          admitStored_of_clash (h.visible c List.mem_cons_self) ⟨a, ha, hname⟩]
        rfl
      · have hfree : ∀ k ∈ r.calendars.rows, k.name ≠ Text.trimmed c.name := by
          intro k hk hname
          exact hc ⟨k, hk, hname⟩
        obtain ⟨hstored, hnext⟩ := h.admit hfree
        have hapart' : NamesApart (r.put c).calendars.rows := by
          rw [NamesApart, h.rows_put, List.pairwise_append]
          refine ⟨hapart, List.pairwise_singleton _ c, ?_⟩
          intro k hk x hx
          rw [List.mem_singleton.mp hx]
          exact hfree k hk
        obtain ⟨b, hb, hbefore, hrefused⟩ := ih hnext hapart' (h.rows_put_append ▸ hclash)
        refine ⟨b, List.mem_cons_of_mem c hb, h.rows_put_append ▸ hbefore, ?_⟩
        rw [List.foldlM_cons, hstored]
        exact hrefused

theorem reserveIds_self {r : Registry}
    (hfresh : ∀ c ∈ r.calendars.rows, c.id.value < r.nextId.value) (hpos : 0 < r.nextId.value) :
    reserveIds { empty with calendars := r.calendars } r.nextId = .ok r := by
  let s : Registry := { empty with calendars := r.calendars }
  have hlt : s.highestId.value < r.nextId.value := highestId_lt_iff.mpr ⟨hpos, hfresh⟩
  have hsmall : s.highestId.value + 1 < UInt64.size := Nat.lt_of_le_of_lt hlt r.nextId.isLt
  let free : CalendarId := ⟨s.highestId.value + 1, hsmall⟩
  have hmax : r.nextId.max free = r.nextId := by
    refine CalendarId.ext ?_
    rw [CalendarId.max_value]
    exact Nat.max_eq_left hlt
  refine reserveIds_eq_ok_iff.mpr ⟨free, CalendarId.next?_eq_some_iff.mpr rfl, ?_⟩
  rw [hmax]

theorem ofCalendars_of_namesApart {r : Registry} (hwf : r.WellFormed) (hlabelled : r.Labelled)
    (hpos : 0 < r.nextId.value) (hapart : NamesApart r.calendars.rows) :
    ofCalendars r.calendars.rows r.nextId = .ok r := by
  have hparents : r.checkParents = .ok () := by
    refine checkParents_eq_ok_iff.mpr ?_
    intro a b hab
    exact ⟨hwf.closed a b hab, fun hpath => hwf.acyclic a (.head' hab hpath)⟩
  exact ofCalendars_eq_ok_iff.mpr ⟨_, foldlM_admitStored_rows hlabelled hapart,
    reserveIds_self hwf.fresh hpos, hparents⟩

theorem ofCalendars_rows {r : Registry} (hwf : r.WellFormed) (hnamed : r.Named) :
    ofCalendars r.calendars.rows r.nextId = .ok r :=
  ofCalendars_of_namesApart hwf hnamed.labelled hnamed.positive
    (hnamed.labelled.namesApart fun c hc => (hnamed.names c hc).1)

theorem ofCalendars_of_clash {r : Registry} (hlabelled : r.Labelled)
    (hclash : ¬ NamesApart r.calendars.rows) :
    ∃ b ∈ r.calendars.rows,
      (∃ a ∈ r.calendars.rows, a.id.value < b.id.value ∧ a.name = Text.trimmed b.name) ∧
      ofCalendars r.calendars.rows r.nextId = .error (.duplicateName (Text.trimmed b.name)) := by
  obtain ⟨b, hb, hbefore, hrefused⟩ :=
    foldlM_admitStored_of_clash hlabelled.following List.Pairwise.nil hclash
  refine ⟨b, hb, hbefore, ?_⟩
  rw [ofCalendars, hrefused]
  rfl

/-! ## Documents -/

/-- A registry that operations made from the empty one is read back from its
document, written in either layout, as it was. -/
theorem parse_saved (ops : List Operation) :
    parse (empty.after ops).toJson.compact = .ok (empty.after ops) ∧
      parse (empty.after ops).toJson.pretty = .ok (empty.after ops) := by
  have hwf := (Reachable.empty.after ops).wellFormed
  have hread := ofReading_toJson hwf.chained (ofCalendars_rows hwf (named_after ops))
  rw [parse, JsonText.decode_compact, parse, JsonText.decode_pretty]
  exact ⟨hread, hread⟩

theorem parse_compact (v : Json) : parse v.compact = ofReading v.toReading :=
  JsonText.decode_compact ofReading v

theorem parse_pretty (v : Json) : parse v.pretty = ofReading v.toReading :=
  JsonText.decode_pretty ofReading v

/-- What is written for a loaded registry reads back as that registry when no
calendar has the name which that of a later one stands for, as when all names
are without blanks around them; otherwise it is refused, in either layout, for a
name of this kind. -/
theorem parse_resaved {text : String} {r : Registry} (h : parse text = .ok r) :
    (NamesApart r.calendars.rows → parse r.toJson.compact = .ok r ∧ parse r.toJson.pretty = .ok r) ∧
      (¬ NamesApart r.calendars.rows → ∃ b ∈ r.calendars.rows,
        (∃ a ∈ r.calendars.rows, a.id.value < b.id.value ∧ a.name = Text.trimmed b.name) ∧
        parse r.toJson.compact = .error (.registry (.duplicateName (Text.trimmed b.name))) ∧
        parse r.toJson.pretty = .error (.registry (.duplicateName (Text.trimmed b.name)))) ∧
      ((∀ c ∈ r.calendars.rows, Text.trimmed c.name = c.name) → NamesApart r.calendars.rows) := by
  have hreach : r.Reachable := .parsed h
  have hwf := hreach.wellFormed
  have hlabelled := hreach.labelled
  rw [parse_compact, parse_pretty, ofReading_toJson_eq hwf.chained]
  refine ⟨?_, ?_, hlabelled.namesApart⟩
  · intro hapart
    rw [ofCalendars_of_namesApart hwf hlabelled hreach.positive hapart]
    exact ⟨rfl, rfl⟩
  · intro hclash
    obtain ⟨b, hb, hbefore, hrefused⟩ := ofCalendars_of_clash hlabelled hclash
    rw [hrefused]
    exact ⟨b, hb, hbefore, rfl, rfl⟩

/-- A document with calendars without rules, given by their numbers and names. -/
def plainDocument (nextId : Nat) (cs : List (Nat × String)) : Json :=
  .object
    [("next_id", .number nextId),
     ("calendars", .list (cs.map fun c =>
       .object [("id", .number c.1), ("name", .text c.2), ("versions", .list [.object []])]))]

theorem parse_resaved_reordered :
    ∃ r, parse (plainDocument 3 [(2, " B"), (1, "A")]).compact = .ok r ∧
      parse r.toJson.compact = .ok r ∧ parse r.toJson.pretty = .ok r := by
  let r : Registry := ⟨⟨[.single ⟨1, by decide⟩ "A" {}, .single ⟨2, by decide⟩ " B" {}],
    by decide⟩, ⟨3, by decide⟩⟩
  have hread : ofReading (plainDocument 3 [(2, " B"), (1, "A")]).toReading = .ok r := by
    decide +kernel
  have hparse : parse (plainDocument 3 [(2, " B"), (1, "A")]).compact = .ok r :=
    (parse_compact _).trans hread
  have hapart : NamesApart r.calendars.rows := by
    rw [NamesApart]
    decide +kernel
  exact ⟨r, hparse, (parse_resaved hparse).1 hapart⟩

/-- A document that is loaded, although what is written for it is not: the
second calendar has the name that the first one's stands for, and comes first
when they are written. -/
theorem resaved_spaced_refused :
    ∃ r, parse (plainDocument 3 [(2, " A"), (1, "A")]).compact = .ok r ∧
      parse r.toJson.compact = .error (.registry (.duplicateName "A")) ∧
      parse r.toJson.pretty = .error (.registry (.duplicateName "A")) := by
  let r : Registry := ⟨⟨[.single ⟨1, by decide⟩ "A" {}, .single ⟨2, by decide⟩ " A" {}],
    by decide⟩, ⟨3, by decide⟩⟩
  have hread : ofReading (plainDocument 3 [(2, " A"), (1, "A")]).toReading = .ok r := by
    decide +kernel
  have hrefused : ofReading r.toJson.toReading = .error (.registry (.duplicateName "A")) := by
    decide +kernel
  exact ⟨r, (parse_compact _).trans hread, (parse_compact _).trans hrefused,
    (parse_pretty _).trans hrefused⟩

end WorkingTime.Registry
