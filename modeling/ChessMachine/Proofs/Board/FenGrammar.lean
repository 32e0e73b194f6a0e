import ChessMachine.Proofs.Board.Letters
import Mathlib.Data.List.Forall2

/-!
# Texts that denote positions

A text denotes a position if its fields describe the board, the side to move, the rights, the en
passant square and the counters. Exactly these texts are read, each as the position it denotes.

## Main definitions

* `Board.RowDescribes`, `Board.IsDescribed`, `Position.IsDescribed` — what a row, the rows and the
  fields of a text say.

## Main results

* `Board.readCells_eq_ok_iff`, `Board.ofPlacements_eq_ok_iff`,
  `Position.ofFen_eq_ok_iff_isDescribed` — each is read exactly as it says.
-/
namespace ChessMachine

namespace Board

/-! ## Rows -/

/-- What the characters of a row say, from the `a` file on: a digit stands for so many empty
squares, and the letter of a piece for that piece. -/
inductive RowDescribes : List Char → List (Option Piece) → Prop where
  | nil : RowDescribes [] []
  | digit {n : Nat} {row : List Char} {cells : List (Option Piece)} (lt : n < 10)
    (rest : RowDescribes row cells) :
    RowDescribes (n.digitChar :: row) (List.replicate n none ++ cells)
  | letter (p : Piece) {row : List Char} {cells : List (Option Piece)}
    (rest : RowDescribes row cells) : RowDescribes (p.letter :: row) (some p :: cells)

variable {rank : Rank} {text : String} {files : Nat} {c : Char} {row : List Char}
  {cells : List (Option Piece)} {b : Board}

/-- A digit has its value. -/
theorem digitChar_value : ∀ n < 10, n.digitChar.isDigit = true ∧
    n.digitChar.toNat - '0'.toNat = n := by decide

theorem digitChar_of_isDigit (h : c.isDigit = true) :
    c.toNat - '0'.toNat < 10 ∧ (c.toNat - '0'.toNat).digitChar = c := by
  have zero : '0'.toNat = 48 := rfl
  obtain ⟨lo, hi⟩ := Text.isDigit_iff.1 h
  have lt : c.toNat - '0'.toNat < 10 := by omega
  refine ⟨lt, Char.toNat_inj.1 ?_⟩
  rw [Nat.toNat_digitChar_of_lt_ten lt]
  omega

/-- A row that starts with a digit says so many empty squares, and then what the rest says. -/
theorem rowDescribes_cons_digit (digit : c.isDigit = true) : RowDescribes (c :: row) cells ↔
    ∃ rest, RowDescribes row rest ∧
      cells = List.replicate (c.toNat - '0'.toNat) none ++ rest := by
  constructor
  · intro h
    cases h with
    | digit lt rest => exact ⟨_, rest, by rw [(digitChar_value _ lt).2]⟩
    | letter p rest =>
      rw [p.isDigit_letter] at digit
      cases digit
  · rintro ⟨rest, h, rfl⟩
    obtain ⟨lt, char⟩ := digitChar_of_isDigit digit
    have described := RowDescribes.digit lt h
    rwa [char] at described

theorem rowDescribes_cons_letter (letter : ¬ c.isDigit = true) : RowDescribes (c :: row) cells ↔
    ∃ p rest, c = Piece.letter p ∧ RowDescribes row rest ∧ cells = some p :: rest := by
  constructor
  · intro h
    cases h with
    | digit lt rest => exact absurd (digitChar_value _ lt).1 letter
    | letter p rest => exact ⟨p, _, rfl, rest, rfl⟩
  · rintro ⟨p, rest, rfl, h, rfl⟩
    exact .letter p h

/-- A digit is read if the rank has room for its squares. -/
theorem readCells_digit (digit : c.isDigit = true) :
    readCells rank text files (c :: row) = .ok cells ↔
      files + (c.toNat - '0'.toNat) ≤ 8 ∧
        ∃ rest, readCells rank text (files + (c.toNat - '0'.toNat)) row = .ok rest ∧
          cells = List.replicate (c.toNat - '0'.toNat) none ++ rest := by
  rw [readCells, if_pos digit]
  by_cases fits : files + (c.toNat - '0'.toNat) ≤ 8
  · simp only [fits, if_true, true_and, bind_eq_ok_iff, pure_eq_ok_iff]
  · simp only [fits, if_false, false_and, reduceCtorEq]

/-- A letter is read if the rank has room for a square more and a piece has that letter. -/
theorem readCells_letter (letter : ¬ c.isDigit = true) :
    readCells rank text files (c :: row) = .ok cells ↔
      files < 8 ∧ ∃ p, c = Piece.letter p ∧
        ∃ rest, readCells rank text (files + 1) row = .ok rest ∧ cells = some p :: rest := by
  rw [readCells, if_neg letter, bind_eq_ok_iff]
  simp only [Piece.ofLetter_eq_ok_iff]
  by_cases space : files < 8
  · simp only [space, if_true, true_and, bind_eq_ok_iff, pure_eq_ok_iff]
  · simp only [space, if_false, false_and, iff_false, not_exists, not_and]
    intro p _ stopped
    cases stopped

/-- The reader accepts what describes the squares that are left on the rank. -/
theorem readCells_eq_ok_iff : readCells rank text files row = .ok cells ↔
    RowDescribes row cells ∧ files + cells.length = 8 := by
  -- the total of eight at the end stands for the checks on the way, which it implies
  induction row generalizing files cells with
  | nil =>
    rw [readCells]
    constructor
    · intro h
      split at h
      · obtain rfl := Except.ok.inj h
        exact ⟨.nil, ‹_›⟩
      · cases h
    · rintro ⟨h, full⟩
      cases h
      exact if_pos full
  | cons c rest ih =>
    by_cases digit : c.isDigit = true
    · rw [readCells_digit digit, rowDescribes_cons_digit digit]
      simp only [ih]
      constructor
      · rintro ⟨-, tail, ⟨described, full⟩, rfl⟩
        refine ⟨⟨tail, described, rfl⟩, ?_⟩
        rw [List.length_append, List.length_replicate]
        omega
      · rintro ⟨⟨tail, described, rfl⟩, full⟩
        rw [List.length_append, List.length_replicate] at full
        exact ⟨by omega, tail, ⟨described, by omega⟩, rfl⟩
    · rw [readCells_letter digit, rowDescribes_cons_letter digit]
      simp only [ih]
      constructor
      · rintro ⟨-, p, rfl, tail, ⟨described, full⟩, rfl⟩
        refine ⟨⟨p, tail, rfl, described, rfl⟩, ?_⟩
        rw [List.length_cons]
        omega
      · rintro ⟨⟨p, tail, rfl, described, rfl⟩, full⟩
        rw [List.length_cons] at full
        exact ⟨by omega, p, rfl, tail, ⟨described, by omega⟩, rfl⟩

/-- The rows of some ranks are read together if each describes eight squares. -/
theorem readRows_eq_ok_iff {ranks : List Rank} {rows : List (List Char)}
    (same : ranks.length = rows.length) : readRows ranks rows = .ok cells ↔
      ∃ contents, List.Forall₂ RowDescribes rows contents ∧
        (∀ cells ∈ contents, cells.length = 8) ∧ cells = contents.flatten := by
  induction ranks generalizing rows cells with
  | nil =>
    obtain rfl := List.length_eq_zero_iff.1 same.symm
    simp [readRows, eq_comm]
  | cons rank ranks ih =>
    obtain ⟨row, rows, rfl⟩ := List.exists_cons_of_length_eq_add_one same.symm
    have shorter : ranks.length = rows.length := Nat.succ.inj same
    simp only [readRows, bind_eq_ok_iff, pure_eq_ok_iff, ih shorter, readRow, readCells_eq_ok_iff,
      Nat.zero_add]
    constructor
    · rintro ⟨first, ⟨read, full⟩, _, ⟨contents, others, allFull, rfl⟩, rfl⟩
      exact ⟨first :: contents, .cons read others, List.forall_mem_cons.2 ⟨full, allFull⟩, rfl⟩
    · rintro ⟨_, _ | ⟨read, others⟩, allFull, rfl⟩
      obtain ⟨full, allFull⟩ := List.forall_mem_cons.1 allFull
      exact ⟨_, ⟨read, full⟩, _, ⟨_, others, allFull, rfl⟩, rfl⟩

/-! ## Boards -/

/-- What rows say of a board: there are eight, with a stroke between any two, and they describe
the ranks from the eighth to the first. -/
def IsDescribed (b : Board) (text : List Char) : Prop :=
  ∃ rows, text = List.intercalate ['/'] rows ∧
    List.Forall₂ RowDescribes rows (Rank.all.reverse.map b.row)

theorem map_length_eq_replicate {contents : List (List (Option Piece))}
    (eight : contents.length = 8) (full : ∀ cells ∈ contents, cells.length = 8) :
    contents.map List.length = List.replicate 8 8 :=
  List.eq_replicate_iff.2 ⟨by rw [List.length_map, eight], List.forall_mem_map.2 full⟩

/-- Eight rows of eight squares list a whole board. -/
theorem length_flatten_eq {contents : List (List (Option Piece))} (eight : contents.length = 8)
    (full : ∀ cells ∈ contents, cells.length = 8) : contents.flatten.length = 64 := by
  rw [List.length_flatten, map_length_eq_replicate eight full]
  rfl

/-- Eight rows of eight squares are the ranks of the board that they list. -/
theorem map_row_ofCells {contents : List (List (Option Piece))} (eight : contents.length = 8)
    (full : ∀ cells ∈ contents, cells.length = 8) :
    Rank.all.map (ofCells contents.flatten.toArray).row = contents := by
  refine List.eq_iff_flatten_eq.2 ⟨?_, map_length_eq_replicate eight full ▸ rfl⟩
  rw [← List.flatMap_def, flatMap_row, map_piece?_ofCells (length_flatten_eq eight full)]

/-- A row that describes something contains no stroke, so that it is one row. -/
theorem not_mem_of_rowDescribes (h : RowDescribes row cells) : '/' ∉ row := by
  have digits : ∀ n < 10, '/' ≠ n.digitChar := by decide
  have letters (p : Piece) : '/' ≠ p.letter := by
    obtain ⟨c, k⟩ := p
    cases c <;> cases k <;> decide
  induction h with
  | nil => exact List.not_mem_nil
  | digit lt _ ih => exact List.not_mem_cons_of_ne_of_not_mem (digits _ lt) ih
  | letter p _ ih => exact List.not_mem_cons_of_ne_of_not_mem (letters p) ih

/-- Placements are read row by row, the last row first. -/
theorem ofPlacements_eq_ok_iff_rows : ofPlacements text = .ok b ↔
    (text.toList.splitOn '/').length = 8 ∧
      ∃ cells, readRows Rank.all (text.toList.splitOn '/').reverse = .ok cells ∧
        b = ofCells cells.toArray := by
  unfold ofPlacements
  by_cases eight : (text.toList.splitOn '/').length = 8
  · simp only [eight, ne_eq, not_true, if_false, true_and]
    exact bind_eq_ok_iff.trans (exists_congr fun _ => and_congr_right fun _ => pure_eq_ok_iff)
  · simp only [eight, ne_eq, not_false_eq_true, if_true, false_and, iff_false]
    exact nofun

/-- A board is read from the texts that describe it. -/
theorem ofPlacements_eq_ok_iff : ofPlacements text = .ok b ↔ b.IsDescribed text.toList := by
  have ranks {rows : List (List Char)} (eight : rows.length = 8) :
      Rank.all.length = rows.reverse.length := by
    rw [List.length_reverse, eight]
    rfl
  rw [ofPlacements_eq_ok_iff_rows]
  constructor
  · rintro ⟨eight, cells, read, rfl⟩
    obtain ⟨contents, described, full, rfl⟩ := (readRows_eq_ok_iff (ranks eight)).1 read
    have same : contents.length = 8 := by
      rw [← described.length_eq, List.length_reverse, eight]
    refine ⟨text.toList.splitOn '/', (List.intercalate_splitOn '/').symm, ?_⟩
    rw [List.map_reverse, map_row_ofCells same full, ← List.forall₂_reverse_iff,
      List.reverse_reverse]
    exact described
  · rintro ⟨rows, chars, described⟩
    have eight : rows.length = 8 := described.length_eq
    -- no row that describes squares holds a stroke, so the text splits into just these rows
    have bare : ∀ row ∈ rows, '/' ∉ row :=
      ((List.forall₂_and_left _ _).1
        (described.imp fun _ _ h => ⟨not_mem_of_rowDescribes h, h⟩)).1
    have split : text.toList.splitOn '/' = rows := by
      rw [chars, List.splitOn_intercalate '/' bare]
      rintro rfl
      cases eight
    have upwards : List.Forall₂ RowDescribes rows.reverse (Rank.all.map b.row) := by
      rwa [← List.forall₂_reverse_iff, List.reverse_reverse, ← List.map_reverse]
    have full : ∀ cells ∈ Rank.all.map b.row, cells.length = 8 :=
      List.forall_mem_map.2 fun _ _ => rfl
    rw [split]
    refine ⟨eight, _, (readRows_eq_ok_iff (ranks eight)).2 ⟨_, upwards, full, rfl⟩, ?_⟩
    rw [← List.flatMap_def, flatMap_row, ofCells_map_piece?]

end Board

/-! ## Fields -/

namespace Position

/-- What is read for the fields behind the first, as far as they are missing. -/
def missingFields : List String := ["w", "-", "-", "0", "1"]

/-- The fields of a text, with those that are missing at its end. -/
def completed (fields : List String) : List String :=
  fields ++ missingFields.drop (fields.length - 1)

/-- What the field for the en passant square says: a hyphen that there is none. -/
def IsEnPassantNamed (target : Option Square) (field : List Char) : Prop :=
  field = ['-'] ∧ target = none ∨ ∃ s, target = some s ∧ s.IsNamed field

/-- Six fields that describe a position one by one. -/
inductive FieldsDescribe (p : Position) : List String → Prop where
  | intro {placements toMove rights enPassant halfmove fullmove : String}
    (board : p.board.IsDescribed placements.toList)
    (color : toMove.toList = [p.toMove.letter])
    (castling : p.rights.IsNamed rights.toList)
    (target : IsEnPassantNamed p.enPassant enPassant.toList)
    (half : Text.IsNumeral p.halfmove.toNat halfmove.toList)
    (full : Text.IsNumeral p.fullmove.toNat fullmove.toList) :
    p.FieldsDescribe [placements, toMove, rights, enPassant, halfmove, fullmove]

/-- A text denotes a position if it consists of one to six fields, which describe the position once
the missing ones are filled in. -/
def IsDescribed (p : Position) (text : String) : Prop :=
  ∃ fields : List String, Text.Parted Text.isAsciiBlank text.toList (fields.map String.toList) ∧
    1 ≤ fields.length ∧ fields.length ≤ 6 ∧ p.FieldsDescribe (completed fields)

variable {p : Position} {text : String} {fields : List String}

theorem readColor_eq_ok_iff {c : Color} : readColor text = .ok c ↔ text.toList = [c.letter] := by
  have white : text = "w" ↔ text.toList = ['w'] := String.toList_inj.symm
  have black : text = "b" ↔ text.toList = ['b'] := String.toList_inj.symm
  simp only [readColor, white, black]
  cases c <;> grind [Color.letter]

theorem readEnPassant_eq_ok_iff {target : Option Square} :
    readEnPassant text = .ok target ↔ IsEnPassantNamed target text.toList := by
  have hyphen : text = "-" ↔ text.toList = ['-'] := String.toList_inj.symm
  rw [readEnPassant, IsEnPassantNamed, ← hyphen]
  by_cases same : text = "-"
  · have nameless (s : Square) : ¬ s.IsNamed text.toList := by
      simp [hyphen.1 same, Square.IsNamed]
    rw [if_pos same, Except.ok.injEq, eq_comm]
    constructor
    · exact fun h => .inl ⟨same, h⟩
    · rintro (⟨-, h⟩ | ⟨s, -, named⟩)
      · exact h
      · exact absurd named (nameless s)
  · rw [if_neg same, or_iff_right fun h => same h.1]
    cases h : Square.ofText text with
    | error e =>
      have unnamed (s : Square) : ¬ s.IsNamed text.toList := by
        rw [← Square.ofText_eq_ok_iff, h]
        intro same
        cases same
      constructor
      · intro stopped
        cases stopped
      · rintro ⟨s, -, named⟩
        exact absurd named (unnamed s)
    | ok s =>
      have only (t : Square) : t.IsNamed text.toList ↔ s = t := by
        rw [← Square.ofText_eq_ok_iff, h, Except.ok.injEq]
      simp only [Except.map, only, Except.ok.injEq]
      constructor
      · exact fun h => ⟨s, h.symm, rfl⟩
      · rintro ⟨t, rfl, rfl⟩
        rfl

/-- A counter is read from its numerals and from nothing else. -/
theorem readCounter_eq_ok_iff {error : String → NotationError} {n : UInt64} :
    readCounter error text = .ok n ↔ Text.IsNumeral n.toNat text.toList := by
  rw [← Text.counter?_eq_some_iff, readCounter]
  cases Text.counter? text <;> simp

/-- Six fields describe a position if each of them is read as its part of it. -/
theorem fieldsDescribe_iff {placements toMove rights enPassant halfmove fullmove : String} :
    p.FieldsDescribe [placements, toMove, rights, enPassant, halfmove, fullmove] ↔
      Board.ofPlacements placements = .ok p.board ∧ readColor toMove = .ok p.toMove ∧
        CastlingRights.ofText rights = .ok p.rights ∧
        readEnPassant enPassant = .ok p.enPassant ∧
        readCounter .fenHalfmove halfmove = .ok p.halfmove ∧
        readCounter .fenFullmove fullmove = .ok p.fullmove := by
  simp only [Board.ofPlacements_eq_ok_iff, readColor_eq_ok_iff, CastlingRights.ofText_eq_ok_iff,
    readEnPassant_eq_ok_iff, readCounter_eq_ok_iff]
  constructor
  · rintro ⟨board, color, castling, target, half, full⟩
    exact ⟨board, color, castling, target, half, full⟩
  · rintro ⟨board, color, castling, target, half, full⟩
    exact .intro board color castling target half full

/-- Fields are filled in one by one. -/
theorem completed_eq : (fields : List String) → 1 ≤ fields.length → fields.length ≤ 6 →
    completed fields = [fields.getD 0 "", fields.getD 1 "w", fields.getD 2 "-",
      fields.getD 3 "-", fields.getD 4 "0", fields.getD 5 "1"]
  | [], nonempty, _ => absurd nonempty (by decide)
  | [_], _, _ | [_, _], _, _ | [_, _, _], _, _ | [_, _, _, _], _, _ | [_, _, _, _, _], _, _
  | [_, _, _, _, _, _], _, _ => rfl
  | _ :: _ :: _ :: _ :: _ :: _ :: _ :: _, _, few => absurd few (by simp)

/-- The fields are read one by one, and there must not be a seventh. -/
theorem ofFields_eq_ok_iff : ofFields fields = .ok p ↔
    1 ≤ fields.length ∧ fields.length ≤ 6 ∧ p.FieldsDescribe (completed fields) := by
  cases fields with
  | nil => exact ⟨nofun, fun h => absurd h.1 (by decide)⟩
  | cons placements rest =>
    have nonempty : 1 ≤ (placements :: rest).length := by simp
    simp only [nonempty, true_and, ofFields, List.getElem?_cons_zero, bind_eq_ok_iff]
    by_cases few : (placements :: rest).length ≤ 6
    · have noneLeft : (placements :: rest)[6]? = none := List.getElem?_eq_none few
      simp only [few, true_and, noneLeft, pure_eq_ok_iff, completed_eq _ nonempty few,
        fieldsDescribe_iff]
      constructor
      · rintro ⟨board, h₀, color, h₁, castling, h₂, target, h₃, half, h₄, full, h₅, rfl⟩
        exact ⟨h₀, h₁, h₂, h₃, h₄, h₅⟩
      · rintro ⟨h₀, h₁, h₂, h₃, h₄, h₅⟩
        exact ⟨_, h₀, _, h₁, _, h₂, _, h₃, _, h₄, _, h₅, rfl⟩
    · obtain ⟨extra, seventh⟩ : ∃ extra, (placements :: rest)[6]? = some extra :=
        ⟨_, List.getElem?_eq_getElem (Nat.lt_of_not_le few)⟩
      simp only [few, false_and, seventh, iff_false]
      rintro ⟨_, -, _, -, _, -, _, -, _, -, _, -, stopped⟩
      cases stopped

/-- A position is read from the texts that denote it. -/
theorem ofFen_eq_ok_iff_isDescribed : ofFen text = .ok p ↔ p.IsDescribed text := by
  rw [ofFen, ofFields_eq_ok_iff]
  constructor
  · exact fun described => ⟨_, Text.asciiWords_eq_iff.1 rfl, described⟩
  · rintro ⟨fields, parted, described⟩
    obtain rfl := Text.asciiWords_eq_iff.2 parted
    exact described

end Position

end ChessMachine
