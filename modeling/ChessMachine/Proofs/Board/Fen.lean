import ChessMachine.Board.Fen
import ChessMachine.Proofs.Board.MoveText
import ChessMachine.Proofs.Board.Squares
import ChessMachine.Proofs.Rules.Failure
import ChessMachine.Proofs.Text.Numeral

/-!
# Positions in text

A position is read back from its notation. Rows are written with runs of empty squares counted,
and read by adding the counts up; the board is written from the eighth rank down and read from
the first rank up.

## Main results

* `Board.readCells_rowChars` — a row is read back, with a run of empty squares before it.
* `Board.ofPlacements_placements` — a board is read back.
* `Position.isFieldChar_of_mem_fields`, `Position.isWord_of_mem_fields` — none of the six fields is
  empty or holds a blank.
* `Position.ofFen_fen` — a position is read back.
-/
namespace ChessMachine

namespace Piece

theorem ofLetter_letter (p : Piece) : Piece.ofLetter p.letter = .ok p := by
  obtain ⟨c, k⟩ := p
  cases c <;> cases k <;> rfl

theorem isDigit_letter (p : Piece) : p.letter.isDigit = false := by
  obtain ⟨c, k⟩ := p
  cases c <;> cases k <;> rfl

end Piece

/-- Printable characters other than the stroke between rows. -/
def Board.IsCellChar (c : Char) : Prop := Move.IsPlain c ∧ c ≠ '/'

namespace Board

variable {rank : Rank} {text : String} {files run : Nat} {cs : List Char}
  {cells : List (Option Piece)}

/-! ## Rows -/

/-- Eight empty squares at most are counted by one digit. -/
theorem runChars_eq (le : run ≤ 8) : runChars run = if run = 0 then [] else [run.digitChar] := by
  rw [runChars, Nat.toDigits_of_lt_base (by omega)]

/-- A run of empty squares is read. -/
theorem readCells_runChars (fits : files + run ≤ 8) :
    readCells rank text files (runChars run ++ cs)
      = (readCells rank text (files + run) cs).map (List.replicate run none ++ ·) := by
  have le : run ≤ 8 := by omega
  rw [runChars_eq le]
  by_cases none : run = 0
  · rw [if_pos none, none, List.nil_append, Nat.add_zero]
    cases readCells rank text files cs <;> rfl
  · have digits : ∀ n ≤ 8, n.digitChar.isDigit = true ∧ n.digitChar.toNat - '0'.toNat = n := by
      decide
    obtain ⟨digit, value⟩ := digits run le
    rw [if_neg none, List.singleton_append, readCells, if_pos digit, value, if_pos fits]
    cases readCells rank text (files + run) cs <;> rfl

/-- A row is read back, with a run of empty squares before it. -/
theorem readCells_rowChars (fits : files + run + cells.length = 8) :
    readCells rank text files (rowChars run cells) = .ok (List.replicate run none ++ cells) := by
  -- each empty square makes the run longer, and each piece ends it
  induction cells generalizing files run with
  | nil =>
    have last : readCells rank text (files + run) [] = .ok [] := by
      rw [readCells, if_pos (by simpa using fits)]
    have le : files + run ≤ 8 := Nat.le_of_eq fits
    rw [rowChars, ← List.append_nil (runChars run), readCells_runChars le, last]
    rfl
  | cons cell rest ih =>
    rw [List.length_cons] at fits
    cases cell with
    | none =>
      rw [rowChars, ih (by omega), List.replicate_succ', List.append_assoc,
        List.singleton_append]
    | some p =>
      have digit : ¬ p.letter.isDigit = true := by simp [p.isDigit_letter]
      have space : files + run < 8 := by omega
      rw [rowChars, readCells_runChars (by omega), readCells, if_neg digit, p.ofLetter_letter,
        ih (by omega)]
      simp [bind, Except.bind, space, Except.map, pure, Except.pure]

/-- A row that is written is read back, and has eight squares. -/
theorem readRow_rowChars (b : Board) (rank : Rank) :
    readRow rank (rowChars 0 (b.row rank)) = .ok (b.row rank) :=
  readCells_rowChars rfl

theorem isAlphanum_of_mem_rowChars {c : Char} (fits : run + cells.length ≤ 8)
    (h : c ∈ rowChars run cells) : c.isAlphanum = true := by
  have letters (p : Piece) : p.letter.isAlphanum = true := by
    obtain ⟨c, k⟩ := p
    cases c <;> cases k <;> rfl
  have runs {n : Nat} (le : n ≤ 8) : ∀ c ∈ runChars n, c.isAlphanum = true := by
    have digits : ∀ n ≤ 8, n.digitChar.isAlphanum = true := by decide
    rw [runChars_eq le]
    split
    · exact nofun
    · exact List.forall_mem_singleton.2 (digits n le)
  induction cells generalizing run with
  | nil => exact runs fits c h
  | cons cell rest ih =>
    rw [List.length_cons] at fits
    cases cell with
    | none =>
      have longer : run + 1 + rest.length ≤ 8 := by omega
      exact ih longer h
    | some p =>
      rw [rowChars, List.mem_append, List.mem_cons] at h
      rcases h with h | rfl | h
      · exact runs (by omega) c h
      · exact letters p
      · exact ih (by omega) h

/-! ## Boards -/

/-- The rows of a board in the order in which they are written. -/
def rows (b : Board) : List (List Char) := Rank.all.reverse.map fun rank => rowChars 0 (b.row rank)

theorem isAlphanum_of_mem_rows {b : Board} {row : List Char} {c : Char} (hr : row ∈ b.rows)
    (hc : c ∈ row) : c.isAlphanum = true := by
  obtain ⟨rank, -, rfl⟩ := List.mem_map.1 hr
  exact isAlphanum_of_mem_rowChars (Nat.le_refl 8) hc

theorem isCellChar_of_mem_rows {b : Board} {row : List Char} {c : Char} (hr : row ∈ b.rows)
    (hc : c ∈ row) : IsCellChar c := by
  have alphanum := isAlphanum_of_mem_rows hr hc
  refine ⟨.of_isAlphanum alphanum, ?_⟩
  rintro rfl
  cases alphanum

/-- Rows are read one after the other, each with its rank. -/
theorem readRows_map (b : Board) (ranks : List Rank) :
    readRows ranks (ranks.map fun rank => rowChars 0 (b.row rank))
      = .ok (ranks.flatMap b.row) := by
  induction ranks with
  | nil => rfl
  | cons rank rest ih =>
    rw [List.map_cons, readRows, readRow_rowChars, ih]
    rfl

/-- The ranks make up the list of squares. -/
theorem flatMap_row (b : Board) : Rank.all.flatMap b.row = Square.all.map b.piece? := by
  rw [Square.all, List.map_flatMap]
  rfl

/-- The rows come apart again at the strokes, since none of them contains one. -/
theorem splitOn_placements (b : Board) : b.placements.splitOn '/' = b.rows :=
  List.splitOn_intercalate '/' (fun _ hr stroke => (isCellChar_of_mem_rows hr stroke).2 rfl) nofun

/-- A board is read back from its rows. -/
theorem ofPlacements_placements (b : Board) :
    ofPlacements (String.ofList b.placements) = .ok b := by
  have count : b.rows.length = 8 := rfl
  have upwards : b.rows.reverse = Rank.all.map fun rank => rowChars 0 (b.row rank) := by
    rw [rows, List.map_reverse, List.reverse_reverse]
  rw [ofPlacements, String.toList_ofList, splitOn_placements]
  simp only [count, upwards, readRows_map, flatMap_row, bind, Except.bind, ne_eq, not_true,
    if_false]
  exact congrArg Except.ok b.ofCells_map_piece?

theorem eq_or_isAlphanum_of_mem_placements {b : Board} {c : Char} (h : c ∈ b.placements) :
    c = '/' ∨ c.isAlphanum = true := by
  rcases Text.mem_intercalate h with rfl | ⟨row, hr, hc⟩
  · exact .inl rfl
  · exact .inr (isAlphanum_of_mem_rows hr hc)

theorem placements_ne_nil (b : Board) : b.placements ≠ [] := by
  intro empty
  have rows := b.splitOn_placements
  rw [empty] at rows
  have count : ([[]] : List (List Char)).length = b.rows.length := congrArg List.length rows
  exact absurd count (by decide : (1 : Nat) ≠ 8)

end Board

/-! ## The other fields -/

/-- Rights are read back from their letters, or from the hyphen that stands for none. -/
theorem CastlingRights.ofText_chars (r : CastlingRights) :
    ofText (String.ofList r.chars) = .ok r := by
  obtain ⟨a, b, c, d⟩ := r
  cases a <;> cases b <;> cases c <;> cases d <;> rfl

theorem CastlingRights.eq_or_isAlphanum_of_mem_chars (r : CastlingRights) :
    r.chars ≠ [] ∧ ∀ c ∈ r.chars, c = '-' ∨ c.isAlphanum = true := by
  have letters (c : Color) (w : Wing) : (letter c w).isAlphanum = true := by
    cases c <;> cases w <;> rfl
  rw [chars]
  split
  · exact ⟨nofun, List.forall_mem_singleton.2 (.inl rfl)⟩
  · rename_i some
    refine ⟨some, fun c hc => ?_⟩
    obtain ⟨⟨color, wing⟩, -, rfl⟩ := List.mem_map.1 hc
    exact .inr (letters color wing)

namespace Position

def enPassantChars (square : Option Square) : List Char := (square.map Square.chars).getD ['-']

theorem readColor_letter (c : Color) : readColor (String.ofList [c.letter]) = .ok c := by
  cases c <;> rfl

/-- The en passant square is read back, or the hyphen that stands for none. -/
theorem readEnPassant_chars (square : Option Square) :
    readEnPassant (String.ofList (enPassantChars square)) = .ok square := by
  cases square with
  | none => rfl
  | some s =>
    have long : String.ofList s.chars ≠ "-" := by
      intro same
      have chars : s.chars = ['-'] := by rw [← String.toList_ofList (l := s.chars), same]; rfl
      exact absurd (congrArg List.length chars) (by decide : 2 ≠ 1)
    have read : Square.ofText (String.ofList s.chars) = .ok s := by
      rw [Square.ofText, String.toList_ofList]
      exact s.ofChars_letter_digit
    show readEnPassant (String.ofList s.chars) = _
    rw [readEnPassant, if_neg long, read]
    rfl

theorem readCounter_toDigits (error : String → NotationError) (n : UInt64) :
    readCounter error (String.ofList (Nat.toDigits 10 n.toNat)) = .ok n := by
  rw [readCounter, Text.counter?_toDigits]

/-! ## Positions -/

def fields (p : Position) : List (List Char) :=
  [p.board.placements, [p.toMove.letter], p.rights.chars, enPassantChars p.enPassant,
    Nat.toDigits 10 p.halfmove.toNat, Nat.toDigits 10 p.fullmove.toNat]

/-- The fields of a position are read back together. -/
theorem ofFields_fields (p : Position) : ofFields (p.fields.map String.ofList) = .ok p := by
  simp only [fields, List.map_cons, List.map_nil, ofFields, List.getElem?_cons_zero,
    List.getElem?_cons_succ, List.getElem?_nil, List.getD_cons_zero, List.getD_cons_succ,
    Board.ofPlacements_placements, readColor_letter, CastlingRights.ofText_chars,
    readEnPassant_chars, readCounter_toDigits, bind, Except.bind]
  rfl

/-- What the fields consist of. -/
def IsFieldChar (c : Char) : Prop := c.isAlphanum = true ∨ c = '/' ∨ c = '-'

instance (c : Char) : Decidable (IsFieldChar c) := inferInstanceAs (Decidable (_ ∨ _))

theorem IsFieldChar.isPlain {c : Char} (h : IsFieldChar c) : Move.IsPlain c := by
  rcases h with alphanum | rfl | rfl
  · exact .of_isAlphanum alphanum
  · decide
  · decide

/-- No field is empty, and none has other characters than these. -/
theorem isFieldChar_of_mem_fields {p : Position} {field : List Char} (h : field ∈ p.fields) :
    field ≠ [] ∧ ∀ c ∈ field, IsFieldChar c := by
  have numeral (n : Nat) :
      Nat.toDigits 10 n ≠ [] ∧ ∀ c ∈ Nat.toDigits 10 n, IsFieldChar c := by
    refine ⟨Nat.toDigits_ne_nil, fun c hc => .inl ?_⟩
    have digit : c.isDigit = true := Nat.isDigit_of_mem_toDigits (by decide) (by decide) hc
    rw [Char.isAlphanum, digit, Bool.or_true]
  simp only [fields, List.mem_cons, List.not_mem_nil, or_false] at h
  rcases h with rfl | rfl | rfl | rfl | rfl | rfl
  · refine ⟨p.board.placements_ne_nil, fun c hc => ?_⟩
    rcases Board.eq_or_isAlphanum_of_mem_placements hc with stroke | alphanum
    · exact .inr (.inl stroke)
    · exact .inl alphanum
  · refine ⟨List.cons_ne_nil _ _, List.forall_mem_singleton.2 (.inl ?_)⟩
    cases p.toMove <;> rfl
  · obtain ⟨some, chars⟩ := p.rights.eq_or_isAlphanum_of_mem_chars
    exact ⟨some, fun c hc => (chars c hc).elim (fun dash => .inr (.inr dash)) .inl⟩
  · cases p.enPassant with
    | none => exact ⟨List.cons_ne_nil _ _, List.forall_mem_singleton.2 (.inr (.inr rfl))⟩
    | some s =>
      exact ⟨List.cons_ne_nil _ _, fun _ hc => .inl (Move.isAlphanum_of_mem_square hc)⟩
  · exact numeral _
  · exact numeral _

/-- The fields can be joined by blanks and told apart again. -/
theorem isWord_of_mem_fields {p : Position} {field : List Char} (h : field ∈ p.fields) :
    Text.IsWord Text.isAsciiBlank field := by
  obtain ⟨some, chars⟩ := isFieldChar_of_mem_fields h
  exact ⟨some, fun c hc => (chars c hc).isPlain.isAsciiBlank_eq_false⟩

/-- A position is read back from its notation. -/
theorem ofFen_fen (p : Position) : ofFen p.fen = .ok p := by
  have words : Text.words Text.isAsciiBlank p.fenChars = p.fields :=
    Text.words_intercalate rfl fun _ => isWord_of_mem_fields
  rw [ofFen, Text.asciiWords, fen, String.toList_ofList, words, ofFields_fields]

end Position

end ChessMachine
