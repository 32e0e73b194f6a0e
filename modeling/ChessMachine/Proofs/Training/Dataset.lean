import ChessMachine.Proofs.Text.Utf8
import ChessMachine.Proofs.Training.Game
import ChessMachine.Training.Dataset
import Mathlib.Data.List.Basic

/-!
# Games in a dataset

A dataset yields the games that were written into it, whatever else stands on its other lines, and
a file with a line that is no text yields an error instead. How a line ends does not matter: a
carriage return before the line feed is trimmed like any blank, and the line behind the last line
feed, if it is empty, holds no game.

## Main definitions

* `Dataset.Row`, `Dataset.Row.IsProper` — what a line is written from.

## Main results

* `Dataset.ofLines_closeLines` — the ends of the lines do not matter.
* `Dataset.ofBytes_rows` — the games of a file, or the first line that is no text.
-/
namespace ChessMachine.Dataset

variable {number : Nat} {line line' : List UInt8} {lines lines' : List (List UInt8)}
  {bytes : ByteArray} {g : Game}

/-! ## One line -/

/-- A game is found on its line. -/
theorem gameOf_text (readable : ∀ m ∈ g.moves, m.IsReadable) : gameOf g.text = some g := by
  obtain ⟨c, rest, chars, first⟩ := g.exists_toList_text_eq_cons
  have some : g.text.isEmpty = false := by
    rw [String.isEmpty_eq_false_iff]
    intro empty
    rw [empty] at chars
    cases chars
  have comment : g.text.startsWith "#" = false := by
    rw [String.startsWith_string_eq_false_iff, chars]
    intro same
    obtain rfl := (List.cons_prefix_cons.1 same).1
    exact absurd first (by decide)
  simp only [gameOf, g.trim_text, some, comment, Game.ofText_text readable]
  rfl

/-- A carriage return at the end of a line is trimmed. -/
theorem gameOf_concat (chars : List Char) :
    gameOf (String.ofList (chars ++ ['\r'])) = gameOf (String.ofList chars) := by
  have trimmed : Text.trim (String.ofList (chars ++ ['\r'])) = Text.trim (String.ofList chars) := by
    rw [Text.trim, Text.trim, String.toList_ofList, String.toList_ofList, Text.strip_concat rfl]
  simp only [gameOf, trimmed]

/-- What is read from a line: nothing, if it is no text. -/
def readLine (line : List UInt8) : Option (Option Game) :=
  (String.fromUTF8? ⟨line.toArray⟩).map gameOf

theorem readLine_utf8 (chars : List Char) :
    readLine (Text.utf8 chars) = some (gameOf (String.ofList chars)) := by
  rw [readLine, Text.fromUTF8?_utf8, Option.map_some]

/-- A line fails to be read exactly if its bytes are no text. -/
theorem readLine_eq_none_iff :
    readLine line = none ↔ ¬ ByteArray.IsValidUTF8 ⟨line.toArray⟩ := by
  rw [readLine, Option.map_eq_none_iff, Text.fromUTF8?_eq_none_iff]

/-- A carriage return that is cut off a line is no part of another character, and so the line was
text only if the rest of it is. -/
theorem readLine_dropReturn (line : List UInt8) :
    readLine (Text.dropReturn '\r'.toUInt8 line) = readLine line := by
  have ascii : '\r'.toNat < 128 := by decide
  rw [Text.dropReturn]
  split
  · rename_i ended
    obtain ⟨front, rfl⟩ := List.getLast?_eq_some_iff.1 ended
    rw [List.dropLast_concat]
    by_cases text : ∃ chars, front = Text.utf8 chars
    · obtain ⟨chars, rfl⟩ := text
      rw [← Text.utf8_concat ascii, readLine_utf8, readLine_utf8, gameOf_concat]
    · have longer : ¬ ∃ chars, front ++ ['\r'.toUInt8] = Text.utf8 chars := by
        rintro ⟨chars, same⟩
        obtain ⟨front', -, encoded⟩ := (Text.utf8_eq_concat_iff ascii).1 same.symm
        exact text ⟨front', encoded⟩
      rw [readLine_eq_none_iff.2 (mt Text.isValidUTF8_iff.1 text),
        readLine_eq_none_iff.2 (mt Text.isValidUTF8_iff.1 longer)]
  · rfl

/-! ## Files -/

/-- A line that is no text ends the reading, and any other adds at most one game. -/
theorem ofLines_cons (number : Nat) (line : List UInt8) (rest : List (List UInt8)) :
    ofLines number (line :: rest) = (readLine line).elim (.error ⟨number⟩) fun game => do
      return game.toList ++ (← ofLines (number + 1) rest) := by
  rw [ofLines, readLine]
  cases String.fromUTF8? ⟨line.toArray⟩ <;> rfl

theorem ofLines_congr (same : readLine line = readLine line')
    (rest : ofLines (number + 1) lines = ofLines (number + 1) lines') :
    ofLines number (line :: lines) = ofLines number (line' :: lines') := by
  rw [ofLines_cons, ofLines_cons, same, rest]

/-- The ends of the lines do not matter. -/
theorem ofLines_closeLines (number : Nat) (lines : List (List UInt8)) :
    ofLines number (Text.closeLines '\r'.toUInt8 lines) = ofLines number lines := by
  induction lines generalizing number with
  | nil => rfl
  | cons line rest ih =>
    cases rest with
    | nil =>
      rw [Text.closeLines]
      split
      · rename_i empty
        obtain rfl := List.isEmpty_iff.1 empty
        rfl
      · rfl
    | cons next rest =>
      rw [Text.closeLines]
      · exact ofLines_congr (readLine_dropReturn line) (ih (number + 1))
      · exact nofun

/-- A file has the lines that were joined in it. -/
theorem ofBytes_eq (joined : bytes.toList = List.intercalate ['\n'.toUInt8] lines)
    (unbroken : ∀ line ∈ lines, '\n'.toUInt8 ∉ line) : ofBytes bytes = ofLines 1 lines := by
  rw [ofBytes, joined, Text.lines, ofLines_closeLines]
  by_cases none : lines = []
  · rw [none]
    rfl
  · rw [List.splitOn_intercalate _ unbroken none]

/-- Lines of text yield the games among them. -/
theorem ofLines_map_utf8 (number : Nat) (texts : List String) :
    ofLines number (texts.map fun text => Text.utf8 text.toList)
      = .ok (texts.filterMap gameOf) := by
  induction texts generalizing number with
  | nil => rfl
  | cons text rest ih =>
    rw [List.map_cons, ofLines_cons, readLine_utf8, String.ofList_toList, Option.elim_some,
      ih (number + 1), List.filterMap_cons]
    cases gameOf text <;> rfl

/-- A file of texts yields the games among them. -/
theorem ofBytes_texts {texts : List String} (unbroken : ∀ text ∈ texts, '\n' ∉ text.toList) :
    ofBytes (String.intercalate "\n" texts).toUTF8 = .ok (texts.filterMap gameOf) := by
  have ascii : '\n'.toNat < 128 := by decide
  have joined : (String.intercalate "\n" texts).toUTF8.toList = List.intercalate ['\n'.toUInt8]
      (texts.map fun text => Text.utf8 text.toList) := by
    have feed : "\n".toList = ['\n'] := rfl
    rw [Text.toList_toUTF8, String.toList_intercalate, feed, Text.utf8_intercalate ascii,
      List.map_map]
    rfl
  rw [ofBytes_eq joined, ofLines_map_utf8]
  intro line mem
  obtain ⟨text, text_mem, rfl⟩ := List.mem_map.1 mem
  exact mt (Text.mem_utf8_iff ascii).1 (unbroken text text_mem)

/-- The first line that is no text is the error. -/
theorem ofLines_eq_error (number : Nat) (before after : List (List UInt8))
    (texts : ∀ line ∈ before, ByteArray.IsValidUTF8 ⟨line.toArray⟩)
    (broken : ¬ ByteArray.IsValidUTF8 ⟨line.toArray⟩) :
    ofLines number (before ++ line :: after) = .error ⟨number + before.length⟩ := by
  induction before generalizing number with
  | nil =>
    rw [List.nil_append, ofLines_cons, readLine_eq_none_iff.2 broken]
    rfl
  | cons first rest ih =>
    obtain ⟨text, others⟩ := List.forall_mem_cons.1 texts
    obtain ⟨chars, rfl⟩ := Text.isValidUTF8_iff.1 text
    rw [List.cons_append, ofLines_cons, readLine_utf8, Option.elim_some, ih (number + 1) others,
      List.length_cons, Nat.add_right_comm]
    rfl

/-! ## Games among other lines -/

/-- Why a line is passed over. -/
inductive IsSkipped (text : String) : Prop where
  | blank (empty : Text.trim text = "")
  | comment (start : (Text.trim text).startsWith "#" = true)
  | malformed (e : GameError) (fails : Game.ofText (Text.trim text) = .error e)

/-- A line that is passed over adds no game. -/
theorem gameOf_of_isSkipped {text : String} (h : IsSkipped text) : gameOf text = none := by
  rw [gameOf]
  cases h with
  | blank empty => simp [empty]
  | comment start => simp [start]
  | malformed e fails => simp [fails, Except.toOption]

/-- What a line of a dataset is written from: a game, or any other text. -/
inductive Row where
  | game (g : Game)
  | other (text : String)

namespace Row

def text : Row → String
  | game g => g.text
  | other text => text

def game? : Row → Option Game
  | game g => some g
  | other _ => none

/-- Texts have the promotions of a game, and any other text is on one line and passed over. -/
inductive IsProper : Row → Prop where
  | game {g : Game} (readable : ∀ m ∈ g.moves, m.IsReadable) : IsProper (game g)
  | other {text : String} (unbroken : '\n' ∉ text.toList) (skipped : IsSkipped text) :
    IsProper (other text)

@[simp] theorem text_game (g : Game) : (game g).text = g.text := rfl

@[simp] theorem text_other (text : String) : (other text).text = text := rfl

variable {row : Row}

/-- A proper row is read as what it was written from. -/
theorem IsProper.gameOf_text (h : row.IsProper) : gameOf row.text = row.game? := by
  cases h with
  | game readable => rw [text_game, Dataset.gameOf_text readable, game?]
  | other _ skipped => rw [text_other, gameOf_of_isSkipped skipped, game?]

theorem IsProper.lineFeed_not_mem (h : row.IsProper) : '\n' ∉ row.text.toList := by
  cases h with
  | @game g _ =>
    rw [text_game]
    exact g.lineFeed_not_mem_text
  | other unbroken _ =>
    rw [text_other]
    exact unbroken

end Row

/-- A dataset yields the games that it was written from, in order, unless a line is no text; then
the number of the first such line is the error. -/
theorem ofBytes_rows :
    (∀ rows : List Row, (∀ row ∈ rows, row.IsProper) →
      ofBytes (String.intercalate "\n" (rows.map Row.text)).toUTF8
        = .ok (rows.filterMap Row.game?)) ∧
    ∀ (before : List (List UInt8)) (line : List UInt8) (after : List (List UInt8)),
      (∀ l ∈ before ++ line :: after, 10 ∉ l) →
      (∀ l ∈ before, ByteArray.IsValidUTF8 ⟨l.toArray⟩) →
      ¬ ByteArray.IsValidUTF8 ⟨line.toArray⟩ →
      ofBytes ⟨(List.intercalate [10] (before ++ line :: after)).toArray⟩
        = .error ⟨before.length + 1⟩ := by
  refine ⟨fun rows proper => ?_, fun before line after unbroken texts broken => ?_⟩
  · have games : (rows.map Row.text).filterMap gameOf = rows.filterMap Row.game? := by
      rw [List.filterMap_map]
      refine List.filterMap_congr fun row mem => ?_
      rw [Function.comp_apply, (proper row mem).gameOf_text]
    rw [ofBytes_texts, games]
    intro text mem
    obtain ⟨row, row_mem, rfl⟩ := List.mem_map.1 mem
    exact (proper row row_mem).lineFeed_not_mem
  · rw [ofBytes_eq (Text.toList_bytes _) unbroken, ofLines_eq_error 1 before after texts broken,
      Nat.add_comm]

/-- A pawn becomes a knight on an otherwise empty board. -/
def promotionGame : Game where
  start :=
    { Position.empty with
      board := Board.empty.place ⟨.white, .pawn⟩ ⟨.a, Rank.second .black⟩ }
  moves := [⟨⟨.a, Rank.second .black⟩, ⟨.a, Rank.first .black⟩, some .knight⟩]
  result := .draw

theorem ofBytes_rows_promotionGame :
    ofBytes (String.intercalate "\n" ["# endgames", promotionGame.text, " \r", "no game"]).toUTF8
      = .ok [promotionGame] ∧
    ofBytes ⟨#[35, 10, 255, 10, 255]⟩ = .error ⟨2⟩ := by
  obtain ⟨games, failure⟩ := ofBytes_rows
  have readable : ∀ m ∈ promotionGame.moves, m.IsReadable :=
    List.forall_mem_singleton.2 fun kind promotion => by cases promotion; decide
  refine ⟨games [.other "# endgames", .game promotionGame, .other " \r", .other "no game"] ?_,
    failure [[35]] [255] [[255]] (by decide) (List.forall_mem_singleton.2 (by decide)) (by decide)⟩
  simp only [List.forall_mem_cons]
  refine ⟨?_, .game readable, ?_, ?_, List.forall_mem_nil _⟩
  · exact .other (by decide) (.comment (String.startsWith_string_iff.2 ⟨_, rfl⟩))
  · exact .other (by decide) (.blank rfl)
  · exact .other (by decide) (.malformed _ rfl)

end ChessMachine.Dataset
