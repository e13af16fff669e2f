/-
Going through a range of dates one by one.

The day after a date is found in the civil calendar, across the ends of months and
years, and the last supported day has none (`tomorrow?_eq`).  A cursor that hands out
the dates of a range takes this step each time, up to the last date of the range; it
hands out the dates of the range, each once and in order, and then nothing
(`yields_upTo`).
-/
import WorkingTime.Date.Span
import WorkingTime.Proofs.Date.Civil

namespace WorkingTime

/-! ## The next day -/

namespace Civil

/-- The day after a date by its year, month and day. -/
def next (c : Civil) : Civil :=
  if c.day < daysIn c.year c.month then { c with day := c.day + 1 }
  else if c.month < 12 then { c with month := c.month + 1, day := 1 }
  else { year := c.year + 1, month := 1, day := 1 }

def last : Civil :=
  { year := 9999, month := 12, day := 31 }

variable {c : Civil}

theorem daysIn_pos (year : Int) (month : Nat) : 1 ≤ daysIn year month := by
  unfold daysIn
  split
  · split <;> decide
  all_goals decide

theorem valid_next (h : c.Valid) (hlast : c ≠ last) : c.next.Valid := by
  obtain ⟨⟨hlow, hhigh⟩, ⟨hm, hm'⟩, hd, hd'⟩ := h
  obtain ⟨year, month, day⟩ := c
  simp only [next]
  split
  next hday => exact ⟨⟨hlow, hhigh⟩, ⟨hm, hm'⟩, by simp, hday⟩
  next hday =>
    split
    next hmonth => exact ⟨⟨hlow, hhigh⟩, ⟨by simp, hmonth⟩, Nat.le_refl 1, daysIn_pos _ _⟩
    next hmonth =>
      have hdec : month = 12 := by simp only at hm' hmonth; omega
      subst hdec
      have hday31 : day = 31 := by
        simp only [daysIn] at hd' hday
        omega
      have hyear : year ≠ 9999 := by
        rintro rfl
        exact hlast (by rw [last, hday31])
      refine ⟨⟨by simp only at hlow ⊢; omega, by simp only at hhigh ⊢; omega⟩, by simp,
        Nat.le_refl 1, daysIn_pos _ _⟩

theorem mul_le_yearStart (y : Nat) : 365 * y ≤ yearStart y := by
  rw [yearStart]
  omega

theorem marchOffset_le (h : c.Valid) :
    marchOffset ≤ yearStart ((c.year + 10000).toNat - (c.month + 9) % 12 / 10) +
      monthStart ((c.month + 9) % 12) := by
  obtain ⟨⟨hlow, -⟩, ⟨hm, hm'⟩, -⟩ := h
  have hyear := mul_le_yearStart ((c.year + 10000).toNat - (c.month + 9) % 12 / 10)
  rcases Nat.lt_or_ge c.month 3 with hwinter | hmarch
  · have hmonth : 306 ≤ monthStart ((c.month + 9) % 12) := by
      rw [monthStart]
      omega
    exact Nat.le_trans hmonth (Nat.le_add_left _ _)
  · have hpast : 1 ≤ (c.year + 10000).toNat - (c.month + 9) % 12 / 10 := by omega
    rw [marchOffset]
    omega

theorem isLeap_iff {y : Nat} :
    isLeap ((y : Int) + 1 - 10000) = true ↔
      (y + 1) % 4 = 0 ∧ ((y + 1) % 100 ≠ 0 ∨ (y + 1) % 400 = 0) := by
  simp only [isLeap, Bool.and_eq_true, Bool.or_eq_true, beq_iff_eq, bne_iff_ne]
  omega

theorem yearStart_succ {y : Nat} :
    yearStart (y + 1) = yearStart y + monthStart 11 + daysIn ((y : Int) + 1 - 10000) 2 := by
  show _ = _ + 337 + if isLeap ((y : Int) + 1 - 10000) then 29 else 28
  have hleap := isLeap_iff (y := y)
  simp only [yearStart]
  split
  next hyes =>
    obtain ⟨hfour, hcentury⟩ := hleap.mp hyes
    have hfours : (y + 1) / 4 = y / 4 + 1 := by omega
    rcases hcentury with hcentury | hera <;> omega
  next hno =>
    have hcases : (y + 1) % 4 ≠ 0 ∨ (y + 1) % 100 = 0 ∧ (y + 1) % 400 ≠ 0 := by
      have := mt hleap.mpr hno
      omega
    clear hleap hno
    -- the quotients are those of the year before, save in the last year of a century
    rcases hcases with hplain | ⟨hcentury, hera⟩
    · have hfours : (y + 1) / 4 = y / 4 := by omega
      have hcenturies : (y + 1) / 100 = y / 100 := by omega
      have heras : (y + 1) / 400 = y / 400 := by omega
      omega
    · have hfours : (y + 1) / 4 = y / 4 + 1 := by omega
      have hcenturies : (y + 1) / 100 = y / 100 + 1 := by omega
      have heras : (y + 1) / 400 = y / 400 := by omega
      omega

theorem index_next (h : c.Valid) : c.next.index = c.index + 1 := by
  have hoffset := marchOffset_le h
  obtain ⟨⟨hlow, hhigh⟩, ⟨hm, hm'⟩, hd, hd'⟩ := h
  obtain ⟨year, month, day⟩ := c
  simp only at hlow hm hm' hd hd' hoffset
  simp only [next]
  split
  next hday =>
    simp only [index]
    omega
  next hday =>
    obtain rfl : day = daysIn year month := by omega
    split
    next hmonth =>
      by_cases hfebruary : month = 2
      · -- the year that begins in March is over
        subst hfebruary
        obtain ⟨y, hy⟩ : ∃ y : Nat, year + 10000 = y + 1 := ⟨(year + 9999).toNat, by omega⟩
        obtain rfl : year = y + 1 - 10000 := by omega
        have hnext : ((y : Int) + 1 - 10000 + 10000).toNat = y + 1 := by omega
        simp only [index, hnext] at hoffset ⊢
        have hlast := yearStart_succ (y := y)
        simp only [Nat.reduceAdd, Nat.reduceMod, Nat.reduceDiv, Nat.sub_zero,
          Nat.add_sub_cancel] at hoffset ⊢
        rw [hlast, show monthStart 0 = 0 from rfl]
        omega
      · have hlength := length_month (m := (month + 9) % 12) (by omega) year
        have hback : ((month + 9) % 12 + 2) % 12 + 1 = month := by omega
        have hnext : (month + 1 + 9) % 12 = (month + 9) % 12 + 1 := by omega
        have hyear : ((month + 9) % 12 + 1) / 10 = (month + 9) % 12 / 10 := by omega
        rw [hback] at hlength
        simp only [index, hnext, hyear]
        omega
    next hmonth =>
      obtain rfl : month = 12 := by omega
      have hyear : (year + 1 + 10000).toNat = (year + 10000).toNat + 1 := by omega
      simp only [index, hyear, daysIn, monthStart, Nat.reduceAdd, Nat.reduceMod, Nat.reduceDiv,
        Nat.sub_zero, Nat.add_sub_cancel] at hoffset ⊢
      omega

end Civil

namespace Date

variable {d m m' s s' e : Date} {ds : List Date}

theorem ofIndex?_index (d : Date) : ofIndex? d.index = some d := by
  rw [ofIndex?, dif_pos d.isLt]

theorem index_of_ofIndex? {n : Nat} (h : ofIndex? n = some d) : d.index = n := by
  rw [ofIndex?] at h
  split at h
  · cases h
    rfl
  · cases h

def tomorrow? (d : Date) : Option Date :=
  d.civil.next.date?

/-- In the civil calendar the next day is the one with the next index, and the last
supported day has none. -/
theorem tomorrow?_eq (d : Date) : d.tomorrow? = ofIndex? (d.index + 1) := by
  by_cases hlast : d.civil = Civil.last
  · have hindex : d.index = Civil.last.index := by rw [← hlast, index_civil]
    rw [tomorrow?, hlast, hindex]
    decide
  · rw [tomorrow?, Civil.date?, if_pos (Civil.valid_next d.valid_civil hlast),
      Civil.index_next d.valid_civil, index_civil]

theorem exists_tomorrow (h : m < e) : ∃ m', m.tomorrow? = some m' ∧ m'.index = m.index + 1 := by
  have hlt : m.index + 1 < dayCount := Nat.lt_of_le_of_lt h e.isLt
  refine ⟨⟨m.index + 1, hlt⟩, ?_, rfl⟩
  rw [tomorrow?_eq, ofIndex?, dif_pos hlt]

/-! ## The dates of a range -/

theorem mem_upTo : d ∈ upTo s e ↔ s ≤ d ∧ d ≤ e := by
  simp only [upTo, List.mem_filterMap, List.mem_range'_1]
  constructor
  · rintro ⟨n, ⟨hlow, hhigh⟩, hn⟩
    obtain rfl := index_of_ofIndex? hn
    refine ⟨hlow, ?_⟩
    rw [le_iff]
    omega
  · rintro ⟨hs, he⟩
    rw [le_iff] at hs he
    exact ⟨d.index, ⟨hs, by omega⟩, d.ofIndex?_index⟩

theorem upTo_ascending (s e : Date) : (upTo s e).Pairwise (· < ·) := by
  have hcounted : (List.range' s.index (e.index + 1 - s.index)).Pairwise (· < ·) :=
    List.pairwise_lt_range'
  refine hcounted.filterMap ofIndex? ?_
  intro n n' hlt a ha a' ha'
  rw [lt_iff, index_of_ofIndex? ha, index_of_ofIndex? ha']
  exact hlt

theorem upTo_self (s : Date) : upTo s s = [s] := by
  have hone : s.index + 1 - s.index = 1 := by omega
  rw [upTo, hone, List.range'_one, List.filterMap_cons, ofIndex?_index, List.filterMap_nil]

theorem upTo_append (hsm : s ≤ m) (hme : m < e) (hm' : m'.index = m.index + 1) :
    upTo s e = upTo s m ++ upTo m' e := by
  rw [le_iff] at hsm
  rw [lt_iff] at hme
  have hcount : e.index + 1 - s.index =
      (m.index + 1 - s.index) + (e.index + 1 - m'.index) := by omega
  have hmiddle : s.index + (m.index + 1 - s.index) = m'.index := by omega
  rw [upTo, hcount, ← List.range'_append_1, List.filterMap_append, hmiddle]
  rfl

theorem upTo_of_lt (h : s < e) (hs' : s'.index = s.index + 1) :
    upTo s e = s :: upTo s' e := by
  rw [upTo_append (Nat.le_refl _) h hs', upTo_self]
  rfl

theorem exists_upTo_cons (h : s ≤ e) : ∃ rest, upTo s e = s :: rest := by
  rcases Nat.lt_or_eq_of_le h with hlt | heq
  · obtain ⟨s', -, hs'⟩ := exists_tomorrow hlt
    exact ⟨_, upTo_of_lt hlt hs'⟩
  · obtain rfl : s = e := Date.ext heq
    exact ⟨[], upTo_self s⟩

theorem checkRange_of_lt (h : e < s) : checkRange s e = .error (.reversedRange s e) := by
  have hreversed : ¬ s ≤ e := Nat.not_le.mpr h
  rw [checkRange, if_neg hreversed]

theorem range_of_le (h : s ≤ e) : range s e = .ok (upTo s e) := by
  rw [range, checkRange, if_pos h]
  rfl

/-! ## One date after the other -/

/-- A place in a range of dates: the date to come, if one is left, and the last one. -/
structure Cursor where
  pending : Option Date
  last : Date

namespace Cursor

def start (s e : Date) : Except RuleError Cursor := do
  checkRange s e
  return ⟨some s, e⟩

/-- The date to come, and the place behind it. -/
def next (it : Cursor) : Option Date × Cursor :=
  match it.pending with
  | none => (none, it)
  | some d => (some d, { it with pending := if d < it.last then d.tomorrow? else none })

/-- A cursor hands out these dates, and then nothing. -/
inductive Yields : Cursor → List Date → Prop
  | stop {it : Cursor} : it.next.1 = none → Yields it []
  | more {it it' : Cursor} {d : Date} {ds : List Date} :
      it.next = (some d, it') → Yields it' ds → Yields it (d :: ds)

theorem Yields.unique {it : Cursor} {ds' : List Date} (h : it.Yields ds) (h' : it.Yields ds') :
    ds' = ds := by
  induction h generalizing ds' with
  | stop hstop =>
      cases h' with
      | stop => rfl
      | more hnext _ =>
          rw [hnext] at hstop
          cases hstop
  | more hnext _ ih =>
      cases h' with
      | stop hstop =>
          rw [hnext] at hstop
          cases hstop
      | more hnext' hrest' =>
          obtain ⟨⟨⟩, rfl⟩ := Prod.mk.inj (hnext.symm.trans hnext')
          rw [ih hrest']

theorem next_of_pending (s e : Date) :
    (Cursor.mk (some s) e).next = (some s, ⟨if s < e then s.tomorrow? else none, e⟩) :=
  rfl

/-- A cursor before the first date of a range hands out the dates of the range. -/
theorem yields_upTo (h : s ≤ e) : (Cursor.mk (some s) e).Yields (upTo s e) := by
  -- the induction is on the number of dates to come
  induction hn : e.index - s.index generalizing s with
  | zero =>
      obtain rfl : s = e := by
        rw [le_iff] at h
        exact Date.ext (by omega)
      rw [upTo_self]
      have hlast : ¬ s < s := Nat.lt_irrefl s.index
      refine .more (next_of_pending s s) (.stop ?_)
      rw [if_neg hlast]
      rfl
  | succ n ih =>
      have hlt : s < e := by
        rw [lt_iff]
        omega
      obtain ⟨s', htomorrow, hs'⟩ := exists_tomorrow hlt
      rw [upTo_of_lt hlt hs']
      refine .more (next_of_pending s e) ?_
      rw [if_pos hlt, htomorrow]
      rw [lt_iff] at hlt
      refine ih ?_ ?_
      · rw [le_iff]
        omega
      · omega

theorem start_of_lt (h : e < s) : start s e = .error (.reversedRange s e) := by
  rw [start, checkRange_of_lt h]
  rfl

theorem start_of_le (h : s ≤ e) : start s e = .ok ⟨some s, e⟩ := by
  rw [start, checkRange, if_pos h]
  rfl

end Cursor

end Date

end WorkingTime
