import ChessMachine.Proofs.Board.Fen
import ChessMachine.Training.Game

/-!
# Games in text

A game is written on one line, and read back from it. Neither the notation of a position nor a
list of moves nor a result holds a semicolon, so the line has its three parts in one way only.

## Main definitions

* `GameResult.text`, `Game.text` — the line of a game.
* `Game.IsPart` — what a part of the line may hold.

## Main results

* `Game.toList_text` — the parts of the line.
* `Game.ofText_text` — a game is read back from its line.
-/
namespace ChessMachine

namespace GameResult

def text : GameResult → String
  | blackWin => "0-1"
  | draw => "1/2-1/2"
  | whiteWin => "1-0"

/-- A result is read back, also behind a blank. -/
theorem ofText_text (r : GameResult) : ofText (String.ofList (' ' :: r.text.toList)) = .ok r := by
  cases r <;> rfl

theorem isFieldChar_of_mem_text (r : GameResult) :
    r.text.toList ≠ [] ∧ ∀ c ∈ r.text.toList, Position.IsFieldChar c := by
  have chars : r.text.toList.all (decide <| Position.IsFieldChar ·) = true := by cases r <;> decide
  refine ⟨?_, fun c hc => of_decide_eq_true (List.all_eq_true.1 chars c hc)⟩
  cases r <;> exact List.cons_ne_nil _ _

end GameResult

namespace Position

/-- What consists of such characters is not trimmed at its ends. -/
theorem isWord_of_isFieldChar {field : List Char}
    (h : field ≠ [] ∧ ∀ c ∈ field, IsFieldChar c) : Text.IsWord Text.isBlank field :=
  ⟨h.1, fun c hc => (h.2 c hc).isPlain.isBlank_eq_false⟩

theorem isFieldChar_of_mem_placements (p : Position) :
    p.board.placements ≠ [] ∧ ∀ c ∈ p.board.placements, IsFieldChar c :=
  isFieldChar_of_mem_fields (p := p) (by simp [fields])

/-- The first and the last field are at the ends. -/
theorem exists_fenChars_eq (p : Position) : ∃ middle,
    p.fenChars = p.board.placements ++ middle ++ Nat.toDigits 10 p.fullmove.toNat := by
  refine ⟨[' '] ++ List.intercalate [' '] [[p.toMove.letter], p.rights.chars,
    enPassantChars p.enPassant, Nat.toDigits 10 p.halfmove.toNat] ++ [' '], ?_⟩
  simp [fenChars, enPassantChars, List.intercalate_cons_cons]

/-- A position is read back, also before a blank. -/
theorem ofFen_trim (p : Position) :
    ofFen (Text.trim (String.ofList (p.fenChars ++ [' ']))) = .ok p := by
  obtain ⟨middle, split⟩ := p.exists_fenChars_eq
  have first : Text.IsWord Text.isBlank p.board.placements :=
    isWord_of_isFieldChar p.isFieldChar_of_mem_placements
  have last : Text.IsWord Text.isBlank (Nat.toDigits 10 p.fullmove.toNat) :=
    isWord_of_isFieldChar (isFieldChar_of_mem_fields (p := p) (by simp [fields]))
  have trimmed : Text.trim (String.ofList (p.fenChars ++ [' '])) = p.fen := by
    rw [Text.trim, String.toList_ofList, Text.strip_concat rfl, split,
      Text.strip_append_append first last, ← split, fen]
  have words : Text.words Text.isAsciiBlank p.fenChars = p.fields :=
    Text.words_intercalate rfl fun _ => isWord_of_mem_fields
  rw [trimmed, ofFen, Text.asciiWords, fen, String.toList_ofList, words, ofFields_fields]

end Position

namespace Game

variable {g : Game} {part : List Char}

/-- Where the game started, its moves and its result, on one line. -/
def text (g : Game) : String :=
  g.start.fen ++ " ; " ++ String.intercalate " " (g.moves.map Move.text) ++ " ; " ++ g.result.text

/-! ## Parts of a line -/

/-- What stands between semicolons. -/
def IsPart (part : List Char) : Prop := ∀ c ∈ part, c = ' ' ∨ Position.IsFieldChar c

theorem IsPart.not_mem (h : IsPart part) : ';' ∉ part ∧ '\n' ∉ part :=
  ⟨fun mem => absurd (h _ mem) (by decide), fun mem => absurd (h _ mem) (by decide)⟩

/-- Fields are joined by blanks. -/
theorem isPart_intercalate {fields : List (List Char)}
    (h : ∀ field ∈ fields, ∀ c ∈ field, Position.IsFieldChar c) :
    IsPart (List.intercalate [' '] fields) := by
  intro c hc
  rcases Text.mem_intercalate hc with rfl | ⟨field, mem, hc⟩
  · exact .inl rfl
  · exact .inr (h field mem c hc)

theorem isPart_fenChars (p : Position) : IsPart p.fenChars :=
  isPart_intercalate fun _ mem => (Position.isFieldChar_of_mem_fields (p := p) mem).2

def moveChars (g : Game) : List Char := List.intercalate [' '] (g.moves.map Move.chars)

theorem isPart_moveChars (g : Game) : IsPart g.moveChars := by
  refine isPart_intercalate fun field mem c hc => ?_
  obtain ⟨m, -, rfl⟩ := List.mem_map.1 mem
  exact .inl (Move.isAlphanum_of_mem_chars hc)

theorem isPart_result (g : Game) : IsPart g.result.text.toList :=
  fun c hc => .inr (g.result.isFieldChar_of_mem_text.2 c hc)

/-- The line of a game has three parts, with semicolons between them. -/
theorem toList_text (g : Game) :
    g.text.toList = (g.start.fenChars ++ [' ']) ++ ';' ::
      (' ' :: g.moveChars ++ [' '] ++ ';' :: ' ' :: g.result.text.toList) := by
  have moves : (String.intercalate " " (g.moves.map Move.text)).toList = g.moveChars := by
    simp [moveChars, Move.text, Function.comp_def]
  have sep : " ; ".toList = [' ', ';', ' '] := rfl
  simp only [text, String.toList_append, moves, sep, Position.fen, String.toList_ofList,
    List.append_assoc, List.cons_append, List.nil_append]

/-- Moves are read back, also between blanks. -/
theorem mapM_moveChars (readable : ∀ m ∈ g.moves, m.IsReadable) :
    (Text.asciiWords (String.ofList (' ' :: g.moveChars ++ [' ']))).mapM Move.ofText
      = .ok g.moves := by
  have isWord : ∀ word ∈ g.moves.map Move.chars, Text.IsWord Text.isAsciiBlank word := by
    intro word mem
    obtain ⟨m, -, rfl⟩ := List.mem_map.1 mem
    exact ⟨nofun, fun c hc => (Move.isPlain_of_mem_chars hc).isAsciiBlank_eq_false⟩
  rw [Text.asciiWords, String.toList_ofList, Text.words_concat rfl, Text.words_cons rfl, moveChars,
    Text.words_intercalate rfl isWord, List.map_map]
  exact mapM_map_eq_ok fun m mem => Move.ofText_text (readable m mem)

/-- A game is read back from its line. -/
theorem ofText_text (readable : ∀ m ∈ g.moves, m.IsReadable) : ofText g.text = .ok g := by
  have fen : ';' ∉ g.start.fenChars ++ [' '] := by
    simp [(isPart_fenChars g.start).not_mem.1]
  have moves : ';' ∉ ' ' :: g.moveChars ++ [' '] := by
    simp [(isPart_moveChars g).not_mem.1]
  have result : ';' ∉ ' ' :: g.result.text.toList := by
    simp [(isPart_result g).not_mem.1]
  rw [ofText, toList_text, List.splitOn_append_cons_self_of_not_mem fen,
    List.splitOn_append_cons_self_of_not_mem moves, List.splitOn_eq_singleton result]
  simp only [Position.ofFen_trim, mapM_moveChars readable, GameResult.ofText_text]
  rfl

/-! ## The line as a whole -/

/-- A line begins with the board and ends with the result. -/
theorem exists_toList_text_eq (g : Game) : ∃ middle,
    g.text.toList = g.start.board.placements ++ middle ++ g.result.text.toList := by
  obtain ⟨middle, split⟩ := g.start.exists_fenChars_eq
  refine ⟨middle ++ Nat.toDigits 10 g.start.fullmove.toNat ++
    (" ; ".toList ++ g.moveChars ++ " ; ".toList), ?_⟩
  simp [toList_text, split]

/-- Nothing is trimmed from a line. -/
theorem trim_text (g : Game) : Text.trim g.text = g.text := by
  obtain ⟨middle, split⟩ := g.exists_toList_text_eq
  have first := Position.isWord_of_isFieldChar g.start.isFieldChar_of_mem_placements
  have last := Position.isWord_of_isFieldChar g.result.isFieldChar_of_mem_text
  rw [Text.trim, split, Text.strip_append_append first last, ← split, String.ofList_toList]

/-- The first character is none that starts a comment. -/
theorem exists_toList_text_eq_cons (g : Game) :
    ∃ c rest, g.text.toList = c :: rest ∧ Position.IsFieldChar c := by
  obtain ⟨middle, split⟩ := g.exists_toList_text_eq
  obtain ⟨some, chars⟩ := g.start.isFieldChar_of_mem_placements
  obtain ⟨c, rest, placements⟩ := List.exists_cons_of_ne_nil some
  refine ⟨c, rest ++ middle ++ g.result.text.toList, ?_, chars c (placements ▸ List.mem_cons_self)⟩
  rw [split, placements, List.cons_append, List.cons_append]

/-- A game is written on one line. -/
theorem lineFeed_not_mem_text (g : Game) : '\n' ∉ g.text.toList := by
  simp [toList_text, (isPart_fenChars g.start).not_mem.2, (isPart_moveChars g).not_mem.2,
    (isPart_result g).not_mem.2]

end Game

end ChessMachine
