/-
What is stored of a calendar is read back as it was.

`Record.Fills` describes the members of a stored record: each names a field
that none before it named, and its value fills the slot of that field.  A
record with such members is read (`Record.read_of_fills`), so each round trip
lists the members of its record with the round trips of their values.
-/
import WorkingTime.Proofs.Date.Written
import WorkingTime.Proofs.Json.Numeral
import WorkingTime.Proofs.Stored.Record
import WorkingTime.Proofs.Table

namespace WorkingTime

/-! ## Records -/

namespace Record

variable {σ α : Type} {fields : List (Field σ)}

/-- Written members that fill slots, given the names of the fields filled
before. -/
inductive Fills (fields : List (Field σ)) :
    (seen : List String) → σ → List (String × Json) → σ → Prop
  | nil {seen : List String} {slots : σ} : Fills fields seen slots [] slots
  | cons {seen : List String} {slots slots' filled : σ} {key : String} {value : Json}
      {rest : List (String × Json)} {field : Field σ} :
      fields.find? (·.name == key) = some field → key ∉ seen →
      field.read value.toReading slots = .ok slots' →
      Fills fields (key :: seen) slots' rest filled →
      Fills fields seen slots ((key, value) :: rest) filled

theorem Fills.mono {seen seen' : List String} {slots filled : σ} {members : List (String × Json)}
    (h : Fills fields seen slots members filled) (hsub : seen' ⊆ seen) :
    Fills fields seen' slots members filled := by
  induction h generalizing seen' with
  | nil => exact .nil
  | cons hfind hnew hread _ ih =>
      exact .cons hfind (fun hmem => hnew (hsub hmem)) hread (ih (List.cons_subset_cons _ hsub))

theorem Fills.memberIfSome {seen : List String} {slots filled : σ} {key : String}
    {write : α → Json} {o : Option α} {rest : List (String × Json)} {field : Field σ} (slots' : σ)
    (hfind : fields.find? (·.name == key) = some field) (hnew : key ∉ seen)
    (hnone : o = none → slots = slots')
    (hsome : ∀ a, o = some a → field.read (write a).toReading slots = .ok slots')
    (hrest : Fills fields (key :: seen) slots' rest filled) :
    Fills fields seen slots (Json.memberIfSome key write o ++ rest) filled := by
  cases o with
  | none =>
      rw [hnone rfl]
      exact hrest.mono (List.subset_cons_self _ _)
  | some a => exact .cons hfind hnew (hsome a rfl) hrest

theorem readMembers_of_fills {seen : List String} {slots filled : σ}
    {members : List (String × Json)} (h : Fills fields seen slots members filled) :
    readMembers fields seen slots (Json.toMembers members) = .ok filled := by
  induction h with
  | nil => rfl
  | cons hfind hnew hread _ ih =>
      rw [Json.toMembers, readMembers, hfind]
      simp only [List.contains_eq_mem, hnew, decide_false, hread]
      exact ih

theorem read_of_fills {form : Record σ α} {members : List (String × Json)} {a : α} (filled : σ)
    (h : Fills form.fields [] form.blank members filled) (hbuild : form.build filled = .ok a) :
    form.read (Json.object members).toReading = .ok a := by
  rw [Json.toReading, read, ofMembers, readMembers_of_fills h]
  show (form.build filled).mapError ReadError.missingField = .ok a
  rw [hbuild]
  rfl

end Record

/-! ## Values without fields -/

namespace Reading

variable {α : Type}

theorem asInt_number {ofInt? : Int → Option α} {n : Int} {a : α} (h : ofInt? n = some a) :
    asInt ofInt? (Json.number n).toReading = .ok a := by
  have hint : (Numeral.ofInt n).int?.bind ofInt? = some a := by
    rw [Numeral.int?_ofInt]
    exact h
  have hread : asInt ofInt? (.number (.ofInt n)) = .ok a := by rw [asInt, hint]
  exact hread

theorem asNat_number {ofNat? : Nat → Option α} {n : Nat} {a : α} (h : ofNat? n = some a) :
    asNat ofNat? (Json.number n).toReading = .ok a :=
  asInt_number h

theorem toReadings_eq_map (items : List Json) :
    Json.toReadings items = items.map Json.toReading := by
  induction items with
  | nil => rfl
  | cons item rest ih => rw [Json.toReadings, ih, List.map_cons]

theorem asList_list {read : Reading → Except ReadError α} {write : α → Json} {as : List α}
    (h : ∀ a ∈ as, read (write a).toReading = .ok a) :
    asList read (Json.list (as.map write)).toReading = .ok as := by
  have hitems : (Json.toReadings (as.map write)).mapM read = .ok as := by
    rw [Answer.mapM_eq_ok_iff, toReadings_eq_map, List.map_map, List.forall₂_map_left_iff,
      List.forall₂_same]
    exact h
  rw [Json.toReading, asList, hitems]
  rfl

end Reading

theorem CalendarId.ofReading_toJson (id : CalendarId) : ofReading id.toJson.toReading = .ok id :=
  Reading.asNat_number (dif_pos id.isLt)

theorem Hours.ofReading_toJson (h : Hours) : ofReading h.toJson.toReading = .ok h :=
  Reading.asNat_number (dif_pos h.isLt)

theorem Date.ofReading_toJson (d : Date) : ofReading d.toJson.toReading = .ok d :=
  Answer.bind_eq_ok_iff.mpr ⟨d.text, rfl, Answer.mapError_eq_ok_iff.mpr d.parse_text⟩

theorem DayRule.ofReading_toJson (rule : DayRule) : ofReading rule.toJson.toReading = .ok rule := by
  cases rule with
  | inherited => rfl
  | fixed h =>
      have hread : Reading.asNullable Hours.ofReading h.toJson.toReading = .ok (some h) := by
        show some <$> Hours.ofReading h.toJson.toReading = .ok (some h)
        rw [h.ofReading_toJson]
        rfl
      exact Answer.map_eq_ok_iff.mpr ⟨some h, hread, rfl⟩

/-! ## Records of versions -/

theorem Field.read_required {σ α : Type} {name : String} {read : Reading → Except ReadError α}
    {put : σ → α → σ} {value : Reading} {slots : σ} {a : α} (h : read value = .ok a) :
    (Field.required name read put).read value slots = .ok (put slots a) :=
  Answer.map_eq_ok_iff.mpr ⟨a, h, rfl⟩

theorem Field.read_optionally {σ α : Type} {name : String} {read : Reading → Except ReadError α}
    {put : σ → α → σ} {value : Reading} {slots : σ} {a : α} (h : read value = .ok a) :
    (Field.optionally name read put).read value slots = .ok (put slots a) :=
  Answer.map_eq_ok_iff.mpr ⟨a, h, rfl⟩

theorem WeekTable.ofReading_toJson (t : WeekTable) : ofReading t.toJson.toReading = .ok t := by
  have hday : ∀ (w : Weekday) (slots : WeekTable) (rule : DayRule),
      (field w).read rule.toJson.toReading slots = .ok (slots.set w rule) := by
    intro w slots rule
    exact Field.read_optionally rule.ofReading_toJson
  refine Record.read_of_fills t ?_ rfl
  exact .cons rfl (by decide) (hday .monday _ t.monday) <|
    .cons rfl (by decide) (hday .tuesday _ t.tuesday) <|
    .cons rfl (by decide) (hday .wednesday _ t.wednesday) <|
    .cons rfl (by decide) (hday .thursday _ t.thursday) <|
    .cons rfl (by decide) (hday .friday _ t.friday) <|
    .cons rfl (by decide) (hday .saturday _ t.saturday) <|
    .cons rfl (by decide) (hday .sunday _ t.sunday) .nil

theorem Category.ofReading_toJson (c : Category) : ofReading c.toJson.toReading = .ok c := by
  refine Record.read_of_fills ⟨some c.name, some c.color, some c.resourceSpecific⟩ ?_ rfl
  exact .cons rfl (by decide) (Field.read_required rfl) <|
    .cons rfl (by decide) (Field.read_required rfl) <|
    .cons rfl (by decide) (Field.read_required rfl) .nil

theorem ExceptionDay.ofReading_toJson (e : ExceptionDay) :
    ofReading e.toJson.toReading = .ok e := by
  refine Record.read_of_fills ⟨some e.date, some e.hours, some e.category⟩ ?_ rfl
  exact .cons rfl (by decide) (Field.read_required e.date.ofReading_toJson) <|
    .cons rfl (by decide) (Field.read_required e.hours.ofReading_toJson) <|
    .cons rfl (by decide) (Field.read_required e.category.ofReading_toJson) .nil

/-- The rows of a table have distinct dates, so comparing them refuses none. -/
theorem ExceptionDay.tabulate_rows (t : Table ExceptionDay) : tabulate t.rows = .ok t := by
  have hfold : tabulate t.rows = .ok (t.rows.foldl Table.insert .empty) := by
    refine Answer.foldlM_eq_ok
      (P := fun (t : Table ExceptionDay) l => (t.rows ++ l).Pairwise fun a b =>
        Keyed.key a < Keyed.key b) ?_ t.ascending
    intro t e l h
    have hlt : ∀ k ∈ t.rows, Keyed.key k < Keyed.key e := by
      intro k hk
      exact (List.pairwise_append.mp h).2.2 k hk e List.mem_cons_self
    have hfree : ¬ t.contains e.date.index = true := by
      rw [Table.contains_iff]
      rintro ⟨k, hk, hkey⟩
      exact Nat.ne_of_lt (hlt k hk) hkey
    refine ⟨if_neg hfree, ?_⟩
    rw [Table.rows_insert_of_lt hlt, List.append_assoc]
    exact h
  rw [hfold, Table.foldl_insert_rows]

theorem ExceptionDay.tableOfReading_rows (t : Table ExceptionDay) :
    tableOfReading (Json.list (t.rows.map toJson)).toReading = .ok t :=
  Answer.bind_eq_ok_iff.mpr
    ⟨t.rows, Reading.asList_list fun e _ => e.ofReading_toJson, tabulate_rows t⟩

theorem Reading.asNullable_eq_ok {α : Type} {read : Reading → Except ReadError α}
    {value : Reading} {a : α} (hnull : value ≠ .null) (h : read value = .ok a) :
    value.asNullable read = .ok (some a) := by
  cases value with
  | null => exact absurd rfl hnull
  | _ => exact Answer.map_eq_ok_iff.mpr ⟨a, h, rfl⟩

theorem Version.ofReading_toJson (v : Version) : ofReading v.toJson.toReading = .ok v := by
  have hparent : ∀ p : CalendarId, p.toJson.toReading.asNullable CalendarId.ofReading =
      .ok (some p) := by
    intro p
    exact Reading.asNullable_eq_ok (by rintro ⟨⟩) p.ofReading_toJson
  have hdate : ∀ d : Date, d.toJson.toReading.asNullable Date.ofReading = .ok (some d) := by
    intro d
    exact Reading.asNullable_eq_ok (by rintro ⟨⟩) d.ofReading_toJson
  have hmembers : v.toJson = .object
      (("hours", v.week.toJson) ::
        ("exceptions", .list (v.exceptions.rows.map ExceptionDay.toJson)) ::
        (Json.memberIfSome "parent" CalendarId.toJson v.parent ++
          (Json.memberIfSome "valid_from" Date.toJson v.validFrom ++
            (Json.memberIfSome "expiring_date" Date.toJson v.expires ++ [])))) := by
    simp [toJson]
  rw [hmembers]
  refine Record.read_of_fills v ?_ rfl
  obtain ⟨⟨week, exceptions, parent⟩, validFrom, expires⟩ := v
  refine .cons rfl (by decide) (Field.read_optionally week.ofReading_toJson) ?_
  refine .cons rfl (by decide)
    (Field.read_optionally (ExceptionDay.tableOfReading_rows exceptions)) ?_
  refine .memberIfSome ⟨⟨week, exceptions, parent⟩, none, none⟩ rfl (by decide) ?_ ?_ ?_
  · rintro rfl
    rfl
  · rintro p rfl
    exact Field.read_optionally (hparent p)
  refine .memberIfSome ⟨⟨week, exceptions, parent⟩, validFrom, none⟩ rfl (by decide) ?_ ?_ ?_
  · rintro rfl
    rfl
  · rintro d rfl
    exact Field.read_optionally (hdate d)
  refine .memberIfSome ⟨⟨week, exceptions, parent⟩, validFrom, expires⟩ rfl (by decide) ?_ ?_ .nil
  · rintro rfl
    rfl
  · rintro d rfl
    exact Field.read_optionally (hdate d)

/-! ## Calendars -/

theorem Calendar.ofReading_toJson {c : Calendar} (h : Version.DivideTime c.versions) :
    ofReading c.toJson.toReading = .ok c := by
  have hfields : form.read c.toJson.toReading = .ok ⟨c.id, c.name, c.versions⟩ := by
    refine Record.read_of_fills ⟨some c.id, some c.name, some c.versions⟩ ?_ rfl
    exact .cons rfl (by decide) (Field.read_required c.id.ofReading_toJson) <|
      .cons rfl (by decide) (Field.read_required rfl) <|
      .cons rfl (by decide)
        (Field.read_required (Reading.asList_list fun v _ => v.ofReading_toJson)) .nil
  have hversions : ofVersions c.id c.name c.versions = .ok c :=
    ofVersions_eq_ok_iff.mpr ⟨h, rfl, rfl, rfl⟩
  exact Answer.bind_eq_ok_iff.mpr ⟨_, hfields, Answer.mapError_eq_ok_iff.mpr hversions⟩

theorem Registry.ofReading_toJson_eq {r : Registry}
    (h : ∀ c ∈ r.calendars.rows, Version.DivideTime c.versions) :
    ofReading r.toJson.toReading = (ofCalendars r.calendars.rows r.nextId).mapError .registry := by
  have hfields : form.read r.toJson.toReading = .ok ⟨r.nextId, r.calendars.rows⟩ := by
    refine Record.read_of_fills ⟨some r.nextId, some r.calendars.rows⟩ ?_ rfl
    exact .cons rfl (by decide) (Field.read_required r.nextId.ofReading_toJson) <|
      .cons rfl (by decide) (Field.read_required
        (Reading.asList_list fun c hc => Calendar.ofReading_toJson (h c hc))) .nil
  rw [ofReading, hfields]
  rfl

/-- A stored registry is read back when its calendars make the registry. -/
theorem Registry.ofReading_toJson {r : Registry}
    (h : ∀ c ∈ r.calendars.rows, Version.DivideTime c.versions)
    (hmake : ofCalendars r.calendars.rows r.nextId = .ok r) :
    ofReading r.toJson.toReading = .ok r := by
  rw [ofReading_toJson_eq h, hmake]
  rfl

end WorkingTime
