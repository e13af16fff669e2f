/-
A written value is read back.

Reading the tokens of a value where a value may come is accepting what is read
from it, whatever lists and objects are open around it (`foldl_tokens`); so a
text that is a written value is read as that value and nothing else
(`JsonText.read_write`), and decoding it is reading the value.
-/
import WorkingTime.Json.Reader
import WorkingTime.Proofs.Json.Token
import WorkingTime.Stored.Record

namespace WorkingTime

namespace Json

open Progress

theorem foldl_tokens_listOpened (v : Json) (frames : List Frame) :
    v.tokens.foldl step (inside frames .listOpened) =
      v.tokens.foldl step (inside (.list [] :: frames) .value) := by
  cases v with
  | list items => cases items <;> rfl
  | object members => cases members <;> rfl
  | _ => rfl

mutual

/-- Reading the tokens of a value is accepting what is read from it. -/
theorem foldl_tokens : ∀ (v : Json) (frames : List Frame),
    v.tokens.foldl step (inside frames .value) = accept v.toReading frames
  | null, _ => rfl
  | bool _, _ => rfl
  | number _, _ => rfl
  | text _, _ => rfl
  | list [], _ => rfl
  | list (item :: rest), frames => by
      rw [tokens, toReading, toReadings, List.foldl_cons, List.foldl_append]
      show (itemTokens rest).foldl step
          (item.tokens.foldl step (inside frames .listOpened)) = _
      rw [foldl_tokens_listOpened, foldl_tokens item]
      exact foldl_itemTokens rest [item.toReading] frames
  | object [], _ => rfl
  | object ((key, value) :: rest), frames => by
      rw [tokens, toReading, toMembers]
      simp only [List.foldl_cons, List.foldl_append]
      show (memberTokens rest).foldl step
          (value.tokens.foldl step (inside (.object [] (some key) :: frames) .value)) = _
      rw [foldl_tokens value]
      exact foldl_memberTokens rest [(some key, value.toReading)] frames

theorem foldl_itemTokens : ∀ (items : List Json) (before : List Reading) (frames : List Frame),
    (itemTokens items).foldl step (inside frames (.afterItem before)) =
      accept (.list (before.reverse ++ toReadings items) true) frames
  | [], before, frames => by
      rw [toReadings, List.append_nil]
      rfl
  | item :: rest, before, frames => by
      rw [itemTokens, toReadings]
      simp only [List.foldl_cons, List.foldl_append]
      show (itemTokens rest).foldl step
          (item.tokens.foldl step (inside (.list before :: frames) .value)) = _
      rw [foldl_tokens item]
      have hrest := foldl_itemTokens rest (item.toReading :: before) frames
      rw [List.reverse_cons, List.append_assoc] at hrest
      exact hrest

theorem foldl_memberTokens : ∀ (members : List (String × Json))
    (before : List (Option String × Reading)) (frames : List Frame),
    (memberTokens members).foldl step (inside frames (.afterMember before)) =
      accept (.object (before.reverse ++ toMembers members) true) frames
  | [], before, frames => by
      rw [toMembers, List.append_nil]
      rfl
  | (key, value) :: rest, before, frames => by
      rw [memberTokens, toMembers]
      simp only [List.foldl_cons, List.foldl_append]
      show (memberTokens rest).foldl step
          (value.tokens.foldl step (inside (.object before (some key) :: frames) .value)) = _
      rw [foldl_tokens value]
      have hrest := foldl_memberTokens rest ((some key, value.toReading) :: before) frames
      rw [List.reverse_cons, List.append_assoc] at hrest
      exact hrest

end

end Json

namespace JsonText

/-- Reading a text is reading its tokens. -/
theorem foldl_step_finish (s : List Char) (lexing : Lexing) (progress : Progress) :
    (s.foldl Reader.step ⟨lexing, progress⟩).finish =
      (⟨.idle, (lexing.tokens s).foldl Progress.step progress⟩ : Reader).finish := by
  induction s generalizing lexing progress with
  | nil => rfl
  | cons c s ih =>
      rw [List.foldl_cons, Lexing.tokens, List.foldl_append]
      exact ih _ _

theorem read_write (layout : Json.Layout) (v : Json) {spaces : List Char}
    (hspaces : ∀ c ∈ spaces, Lexing.isSpace c = true) :
    read (v.write layout ++ spaces) = ⟨v.toReading, true⟩ := by
  have hdelimited : Lexing.Delimited spaces := by
    intro c hc
    simp [Lexing.endsWord, hspaces c (List.mem_of_mem_head? hc)]
  have hnothing : Lexing.idle.tokens spaces = [] := by
    have hend := Lexing.tokens_spaces hspaces []
    rwa [List.append_nil] at hend
  rw [read, foldl_step_finish, Json.spells_write layout v spaces hdelimited, hnothing,
    List.append_nil, Progress.fresh, Json.foldl_tokens]
  rfl

variable {α : Type} (reads : Reading → Except ReadError α) (v : Json)

theorem decode_write (layout : Json.Layout) (spaces : List Char)
    (hspaces : ∀ c ∈ spaces, Lexing.isSpace c = true) :
    decode reads (String.ofList (v.write layout ++ spaces)) = reads v.toReading := by
  rw [decode, String.toList_ofList, read_write layout v hspaces]
  cases reads v.toReading <;> rfl

theorem decode_compact : decode reads v.compact = reads v.toReading := by
  have hwrite := decode_write reads v .compact [] (by simp)
  rwa [List.append_nil] at hwrite

theorem decode_pretty : decode reads v.pretty = reads v.toReading := by
  have hwrite := decode_write reads v (.indented 0) [] (by simp)
  rwa [List.append_nil] at hwrite

theorem decode_pretty_line : decode reads (v.pretty ++ "\n") = reads v.toReading := by
  have hline : v.pretty ++ "\n" = String.ofList (v.write (.indented 0) ++ ['\n']) := by
    rw [String.ofList_append]
    rfl
  rw [hline]
  exact decode_write reads v (.indented 0) _ (by simp [Lexing.isSpace])

end JsonText

/-! ## Both layouts -/

/-- The two texts that are written for a value. -/
def Json.texts (v : Json) : List String :=
  [v.compact, v.pretty]

theorem JsonText.decode_of_mem_texts {α : Type} (reads : Reading → Except ReadError α)
    {v : Json} {text : String} (h : text ∈ v.texts) : decode reads text = reads v.toReading := by
  rw [Json.texts, List.mem_cons, List.mem_singleton] at h
  rcases h with rfl | rfl
  · exact decode_compact reads v
  · exact decode_pretty reads v

end WorkingTime
