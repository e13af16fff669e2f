/-
The tokens of written values.

`Spells s ts` says that a text `s` gives the tokens `ts` wherever it stands
between other tokens: after it comes the end of the text or a character that
ends words.  Spelling goes through concatenation, so the tokens of a value are
put together from those of its parts (`spells_write`).
-/
import WorkingTime.Proofs.Json.Numeral

namespace WorkingTime

/-! ## All tokens of a text -/

namespace Lexing

/-- The tokens of a text from a state on, those that its end ends included. -/
def tokens (state : Lexing) : List Char → List Token
  | [] => state.finish
  | c :: rest => (state.step c).2 ++ tokens (state.step c).1 rest

/-- A text that goes on with no character that could belong to a word. -/
def Delimited (rest : List Char) : Prop :=
  ∀ c ∈ rest.head?, endsWord c = true

theorem delimited_cons {c : Char} (h : endsWord c = true) (rest : List Char) :
    Delimited (c :: rest) := by
  rintro _ ⟨⟩
  exact h

/-! ## Words -/

theorem tokens_word {rest : List Char} (hrest : Delimited rest) (w read : List Char)
    (h : ∀ c ∈ w, endsWord c = false) :
    tokens (word read) (w ++ rest) = Token.ofWord (read.reverse ++ w) :: tokens idle rest := by
  induction w generalizing read with
  | nil =>
      cases rest with
      | nil => simp [tokens, finish]
      | cons c rest =>
          have hc : endsWord c = true := hrest c rfl
          simp [tokens, step, hc]
  | cons c w ih =>
      have hc : endsWord c = false := h c List.mem_cons_self
      have hw := ih (c :: read) fun x hx => h x (List.mem_cons_of_mem _ hx)
      simpa [tokens, step, hc] using hw

/-- A text spells tokens, whatever delimited text follows. -/
def Spells (s : List Char) (ts : List Token) : Prop :=
  ∀ rest, Delimited rest → tokens idle (s ++ rest) = ts ++ tokens idle rest

theorem spells_word {w : List Char} (hne : w ≠ []) (h : ∀ c ∈ w, endsWord c = false) :
    Spells w [Token.ofWord w] := by
  intro rest hrest
  obtain ⟨c, w, rfl⟩ := List.exists_cons_of_ne_nil hne
  have hc : endsWord c = false := h c List.mem_cons_self
  simp only [endsWord, Bool.or_eq_false_iff, Option.isSome_eq_false_iff, Option.isNone_iff_eq_none,
    beq_eq_false_iff_ne] at hc
  have hstart : start c = (word [c], []) := by
    simp [start, hc.1.1, hc.1.2, hc.2]
  have hword := tokens_word hrest w [c] fun x hx => h x (List.mem_cons_of_mem _ hx)
  simpa [tokens, step, hstart] using hword

/-! ## Spaces and punctuation -/

theorem tokens_spaces {s : List Char} (h : ∀ c ∈ s, isSpace c = true) (rest : List Char) :
    tokens idle (s ++ rest) = tokens idle rest := by
  induction s with
  | nil => rfl
  | cons c s ih =>
      have hc : isSpace c = true := h c List.mem_cons_self
      rw [← ih fun x hx => h x (List.mem_cons_of_mem _ hx)]
      simp [tokens, step, start, hc]

theorem tokens_punctuation {c : Char} {t : Token} (hspace : isSpace c = false)
    (h : Token.punctuation? c = some t) (rest : List Char) :
    tokens idle (c :: rest) = t :: tokens idle rest := by
  have hquote : c ≠ '"' := by
    rintro rfl
    cases h
  simp [tokens, step, start, hspace, hquote, h]

/-! ## Strings -/

theorem hexValue?_hexDigit : ∀ n < 16, Token.hexValue? (Json.hexDigit n) = some n := by
  decide

theorem tokens_unit {n : Nat} (h : n < 0x20) (read : List Token.Piece) (rest : List Char) :
    tokens (text read)
        (['\\', 'u', '0', '0', Json.hexDigit (n / 16), Json.hexDigit (n % 16)] ++ rest) =
      tokens (text (.unit n :: read)) rest := by
  have hzero : Token.hexValue? '0' = some 0 := rfl
  have hhigh := hexValue?_hexDigit (n / 16) (by omega)
  have hlow := hexValue?_hexDigit (n % 16) (by omega)
  have hn : 16 * (n / 16) + n % 16 = n := Nat.div_add_mod n 16
  simp [tokens, step, hzero, hhigh, hlow, hn]

theorem join?_unit {c : Char} (h : c.toNat < 0x20) (ps : List Token.Piece) :
    Token.join? (.unit c.toNat :: ps) = (c :: ·) <$> Token.join? ps := by
  have hhigh : Token.isHigh c.toNat = false := by
    simp only [Token.isHigh, Bool.and_eq_false_iff, decide_eq_false_iff_not]
    omega
  have hlow : Token.isLow c.toNat = false := by
    simp only [Token.isLow, Bool.and_eq_false_iff, decide_eq_false_iff_not]
    omega
  rw [Token.join?.eq_def]
  simp [hhigh, hlow]

/-- A character as it stands in a string is read as one piece of the string,
and this piece is that character. -/
theorem exists_piece (c : Char) : ∃ p : Token.Piece,
    (∀ read rest, tokens (text read) (Json.escape c ++ rest) = tokens (text (p :: read)) rest) ∧
      ∀ ps, Token.join? (p :: ps) = (c :: ·) <$> Token.join? ps := by
  unfold Json.escape
  split
  all_goals try exact ⟨.char _, fun _ _ => rfl, fun _ => rfl⟩
  next hquote hslash _ _ _ _ _ =>
    by_cases hcontrol : c.toNat < 0x20
    · rw [if_pos hcontrol]
      exact ⟨.unit c.toNat, tokens_unit hcontrol, join?_unit hcontrol⟩
    · rw [if_neg hcontrol]
      refine ⟨.char c, ?_, fun _ => rfl⟩
      intro read rest
      have hchar : c ≠ '"' ∧ c ≠ '\\' := ⟨hquote, hslash⟩
      simp [tokens, step, hcontrol, hchar]

theorem exists_pieces (s : List Char) : ∃ ps : List Token.Piece,
    (∀ read rest, tokens (text read) (s.flatMap Json.escape ++ rest) =
      tokens (text (ps.reverse ++ read)) rest) ∧ Token.join? ps = some s := by
  induction s with
  | nil => exact ⟨[], fun _ _ => rfl, rfl⟩
  | cons c s ih =>
      obtain ⟨p, hp, hjoin⟩ := exists_piece c
      obtain ⟨ps, hps, hjoins⟩ := ih
      refine ⟨p :: ps, ?_, ?_⟩
      · intro read rest
        rw [List.flatMap_cons, List.append_assoc, hp, hps]
        simp
      · rw [hjoin, hjoins]
        rfl

theorem tokens_quote (s : String) (rest : List Char) :
    tokens idle (Json.quote s ++ rest) = .text (some s) :: tokens idle rest := by
  obtain ⟨ps, hps, hjoin⟩ := exists_pieces s.toList
  have hopen : ∀ s, tokens idle ('"' :: s) = tokens (text []) s := fun _ => rfl
  have hclose : tokens (text ps.reverse) ('"' :: rest) =
      .text (some s) :: tokens idle rest := by
    simp [tokens, step, textToken, hjoin]
  rw [Json.quote, List.append_assoc, List.cons_append, hopen, hps, List.append_nil]
  exact hclose

/-! ## Putting texts together -/

variable {s s' : List Char} {ts ts' : List Token}

theorem Spells.append (h : Spells s ts) (h' : Spells s' ts')
    (hdelimited : ∀ rest, Delimited (s' ++ rest)) : Spells (s ++ s') (ts ++ ts') := by
  intro rest hrest
  rw [List.append_assoc, h _ (hdelimited rest), h' rest hrest, List.append_assoc]

theorem Spells.spaces {spaces : List Char} (h : Spells s ts)
    (hspaces : ∀ c ∈ spaces, isSpace c = true) : Spells (spaces ++ s) ts := by
  intro rest hrest
  rw [List.append_assoc, tokens_spaces hspaces, h rest hrest]

theorem Spells.punctuation {c : Char} {t : Token} (h : Spells s ts)
    (hspace : isSpace c = false) (hc : Token.punctuation? c = some t) :
    Spells (c :: s) (t :: ts) := by
  intro rest hrest
  rw [List.cons_append, tokens_punctuation hspace hc, h rest hrest]
  rfl

theorem Spells.quote {key : String} (h : Spells s ts) :
    Spells (Json.quote key ++ s) (.text (some key) :: ts) := by
  intro rest hrest
  rw [List.append_assoc, tokens_quote, h rest hrest]
  rfl

theorem spells_nil : Spells [] [] := fun _ _ => rfl

end Lexing

/-! ## Values -/

namespace Json

mutual

def tokens : Json → List Token
  | null => [.scalar .null]
  | bool b => [.scalar (.bool b)]
  | number n => [.scalar (number n).toReading]
  | text s => [.text (some s)]
  | list [] => [.listStart, .listEnd]
  | list (item :: rest) => .listStart :: (tokens item ++ itemTokens rest)
  | object [] => [.objectStart, .objectEnd]
  | object ((key, value) :: rest) =>
      .objectStart :: .text (some key) :: .colon :: (tokens value ++ memberTokens rest)

/-- The tokens of a list after its first item. -/
def itemTokens : List Json → List Token
  | [] => [.listEnd]
  | item :: rest => .comma :: (tokens item ++ itemTokens rest)

/-- The tokens of an object after its first member. -/
def memberTokens : List (String × Json) → List Token
  | [] => [.objectEnd]
  | (key, value) :: rest =>
      .comma :: .text (some key) :: .colon :: (tokens value ++ memberTokens rest)

end

open Lexing

/-! ## Written values -/

theorem isSpace_of_mem_lineBreak {layout : Layout} :
    ∀ c ∈ layout.lineBreak, isSpace c = true := by
  cases layout with
  | compact => exact fun _ hc => absurd hc List.not_mem_nil
  | indented depth =>
      intro c hc
      rcases List.mem_cons.mp hc with rfl | hc
      · rfl
      · rw [List.eq_of_mem_replicate hc]
        rfl

theorem spells_colon {layout : Layout} {s : List Char} {ts : List Token} (h : Spells s ts) :
    Spells (layout.colon ++ s) (.colon :: ts) := by
  cases layout with
  | compact => exact h.punctuation rfl rfl
  | indented depth =>
      have hspace : Spells ([' '] ++ s) ts :=
        h.spaces fun c hc => by rw [List.mem_singleton.mp hc]; rfl
      exact hspace.punctuation rfl rfl

theorem delimited_close {layout : Layout} {c : Char} (hc : endsWord c = true)
    (rest : List Char) : Delimited (layout.lineBreak ++ [c] ++ rest) := by
  cases layout with
  | compact => exact delimited_cons hc rest
  | indented depth => exact delimited_cons rfl _

theorem delimited_writeItems (layout : Layout) (items : List Json) (rest : List Char) :
    Delimited (writeItems layout items ++ rest) := by
  cases items with
  | nil =>
      rw [writeItems]
      exact delimited_close rfl rest
  | cons item items =>
      rw [writeItems]
      exact delimited_cons rfl _

theorem delimited_writeMembers (layout : Layout) (members : List (String × Json))
    (rest : List Char) : Delimited (writeMembers layout members ++ rest) := by
  cases members with
  | nil =>
      rw [writeMembers]
      exact delimited_close rfl rest
  | cons member members =>
      rw [writeMembers]
      exact delimited_cons rfl _

theorem endsWord_of_isDigit {c : Char} (h : Text.isDigit c = true) : endsWord c = false := by
  have hne : ∀ d, Text.isDigit d = false → c ≠ d := by
    rintro d hd rfl
    simp [hd] at h
  have hpunctuation : Token.punctuation? c = none := by
    unfold Token.punctuation?
    split
    all_goals first
      | rfl
      | exact absurd rfl (hne _ rfl)
  simp [endsWord, isSpace, hpunctuation, hne ' ' rfl, hne '\n' rfl, hne '\r' rfl,
    hne '\t' rfl, hne '"' rfl]

theorem endsWord_of_mem_signed {n : Int} {c : Char} (h : c ∈ Text.signed n) :
    endsWord c = false := by
  rcases Text.mem_signed h with rfl | hdigit
  · rfl
  · exact endsWord_of_isDigit hdigit

mutual

/-- A written value spells its tokens, in every layout. -/
theorem spells_write (layout : Layout) : ∀ v : Json, Spells (v.write layout) v.tokens
  | null => by
      rw [write, tokens]
      exact spells_word (List.cons_ne_nil _ _) (by simp [endsWord, isSpace, Token.punctuation?])
  | bool true => by
      rw [write, tokens]
      exact spells_word (List.cons_ne_nil _ _) (by simp [endsWord, isSpace, Token.punctuation?])
  | bool false => by
      rw [write, tokens]
      exact spells_word (List.cons_ne_nil _ _) (by simp [endsWord, isSpace, Token.punctuation?])
  | number n => by
      have hword := spells_word (Text.signed_ne_nil n) fun _ hc => endsWord_of_mem_signed hc
      rw [Token.ofWord_signed] at hword
      rw [write, tokens]
      exact hword
  | text s => by
      have hquote : Spells (quote s ++ []) [.text (some s)] := spells_nil.quote
      rw [List.append_nil] at hquote
      rw [write, tokens]
      exact hquote
  | list [] => by
      rw [write, tokens]
      exact (spells_nil.punctuation rfl rfl).punctuation rfl rfl
  | list (item :: rest) => by
      have hitem := spells_write layout.deeper item
      have hrest := spells_writeItems layout rest
      rw [write, tokens]
      simp only [List.cons_append, List.append_assoc]
      exact ((hitem.append hrest (delimited_writeItems layout rest)).spaces
        isSpace_of_mem_lineBreak).punctuation rfl rfl
  | object [] => by
      rw [write, tokens]
      exact (spells_nil.punctuation rfl rfl).punctuation rfl rfl
  | object ((key, value) :: rest) => by
      have hvalue := spells_write layout.deeper value
      have hrest := spells_writeMembers layout rest
      rw [write, tokens]
      simp only [List.cons_append, List.append_assoc]
      exact ((spells_colon (hvalue.append hrest (delimited_writeMembers layout rest))).quote.spaces
        isSpace_of_mem_lineBreak).punctuation rfl rfl

theorem spells_writeItems (layout : Layout) :
    ∀ items : List Json, Spells (writeItems layout items) (itemTokens items)
  | [] => by
      have hclose : Spells [']'] [.listEnd] := spells_nil.punctuation rfl rfl
      rw [writeItems, itemTokens]
      exact hclose.spaces isSpace_of_mem_lineBreak
  | item :: rest => by
      have hitem := spells_write layout.deeper item
      have hrest := spells_writeItems layout rest
      rw [writeItems, itemTokens]
      simp only [List.cons_append, List.append_assoc]
      exact ((hitem.append hrest (delimited_writeItems layout rest)).spaces
        isSpace_of_mem_lineBreak).punctuation rfl rfl

theorem spells_writeMembers (layout : Layout) :
    ∀ members : List (String × Json), Spells (writeMembers layout members) (memberTokens members)
  | [] => by
      have hclose : Spells ['}'] [.objectEnd] := spells_nil.punctuation rfl rfl
      rw [writeMembers, memberTokens]
      exact hclose.spaces isSpace_of_mem_lineBreak
  | (key, value) :: rest => by
      have hvalue := spells_write layout.deeper value
      have hrest := spells_writeMembers layout rest
      rw [writeMembers, memberTokens]
      simp only [List.cons_append, List.append_assoc]
      exact ((spells_colon (hvalue.append hrest (delimited_writeMembers layout rest))).quote.spaces
        isSpace_of_mem_lineBreak).punctuation rfl rfl

end

end Json

end WorkingTime
