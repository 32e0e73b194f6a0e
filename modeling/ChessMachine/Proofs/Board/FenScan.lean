import ChessMachine.Proofs.Board.FenGrammar

/-!
# Positions read step by step

A reader that goes through a text once counts files in a byte, places each piece as it meets its
letter, and takes the letter of a file for a number by a subtraction. Each of these steps could
leave the byte or the board. None does: the reader ends as `Position.ofFen` does on every text.

## Main definitions

* `ScanFault` — what can stop the reader.
* `Board.fill` — pieces placed one by one.
* `Board.scan`, `Position.scan` — the reader.

## Main results

* `Position.scan_eq` — it finds the same position or the same mistake.
* `Position.reads_iff_isDescribed` — which texts are read, and as what.
-/
namespace ChessMachine

/-- What can stop a reader: a mistake in the text, or a step of its own. -/
inductive ScanFault where
  | reading (cause : NotationError)
  | overflow
  | offBoard

namespace Board

/-- Places what is listed for some squares, one by one. Nothing is cleared. -/
def fill (b : Board) : List Square → List (Option Piece) → Board
  | s :: squares, some p :: cells => (b.place p s).fill squares cells
  | _ :: squares, none :: cells => b.fill squares cells
  | _, _ => b

/-- Scans what follows `files` squares of the row `text`. -/
def scanCells (rank : Rank) (text : String) (b : Board) (files : Bounded 0 0xff) :
    List Char → Except ScanFault Board
  | [] => if files.val = 8 then .ok b else .error (.reading (.fenShortRank rank.digit text))
  | c :: rest =>
    if c.isDigit then
      let files := Bounded.saturate (by decide) (files.val + (c.toNat - '0'.toNat : Nat))
      if 8 < files.val then .error (.reading (.fenCrowdedRank rank.digit text))
      else scanCells rank text b files rest
    else do
      let p ← (Piece.ofLetter c).mapError .reading
      if 7 < files.val then .error (.reading (.fenCrowdedRank rank.digit text))
      else
        let file ← (File.ofIndex files.val.toNat).mapError fun _ => .offBoard
        match files.add? ⟨1, by decide, by decide⟩ with
        | some next => scanCells rank text (b.place p ⟨file, rank⟩) next rest
        | none => .error .overflow

/-- Scans rows, the first of which goes with the rank of the given number. -/
def scanRows (b : Board) (rank : Nat) : List (List Char) → Except ScanFault Board
  | [] => .ok b
  | row :: rows => do
    let r ← (Rank.ofIndex rank).mapError fun _ => .offBoard
    let filled ← scanCells r (String.ofList row) b ⟨0, by decide, by decide⟩ row
    scanRows filled (rank + 1) rows

def scan (text : String) : Except ScanFault Board :=
  let rows := text.toList.splitOn '/'
  if rows.length ≠ 8 then .error (.reading .fenRanks) else scanRows .empty 0 rows.reverse

/-! ## Placing pieces one by one -/

variable {b : Board} {squares : List Square} {cells : List (Option Piece)}

theorem fill_append {squares' : List Square} {cells' : List (Option Piece)}
    (same : squares.length = cells.length) :
    b.fill (squares ++ squares') (cells ++ cells') =
      (b.fill squares cells).fill squares' cells' := by
  induction squares generalizing b cells with
  | nil =>
    obtain rfl := List.length_eq_zero_iff.1 same.symm
    cases squares' <;> cases cells' <;> rfl
  | cons s squares ih =>
    obtain ⟨content, cells, rfl⟩ := List.exists_cons_of_length_eq_add_one same.symm
    have shorter : squares.length = cells.length := Nat.succ.inj same
    cases content with
    | none => exact ih shorter
    | some p => exact ih shorter

/-- Squares that are said to be empty are left as they are. -/
theorem fill_replicate (n : Nat) :
    b.fill squares (List.replicate n none ++ cells) = b.fill (squares.drop n) cells := by
  induction n generalizing squares with
  | zero => rfl
  | succ n ih =>
    cases squares with
    | nil => cases cells <;> rfl
    | cons s squares => exact ih

/-- What stands where afterwards: what is listed, and else what stood there before. -/
theorem piece?_fill_map (f : Square → Option Piece) (s : Square) :
    (b.fill squares (squares.map f)).piece? s =
      if s ∈ squares then (f s).or (b.piece? s) else b.piece? s := by
  induction squares generalizing b with
  | nil => rfl
  | cons t squares ih =>
    rw [List.map_cons]
    cases content : f t with
    | none =>
      rw [fill, ih]
      by_cases same : s = t
      · subst same
        simp [content]
      · simp [same]
    | some p =>
      rw [fill, ih, piece?_place]
      by_cases same : s = t
      · subst same
        simp [content]
      · simp [same]

/-- On an empty board the pieces make the board that they are listed for. -/
theorem fill_empty_all (full : cells.length = 64) :
    Board.empty.fill Square.all cells = ofCells cells.toArray := by
  refine ext_piece fun s => ?_
  have listed : Square.all.map (ofCells cells.toArray).piece? = cells := map_piece?_ofCells full
  calc (Board.empty.fill Square.all cells).piece? s
      = (Board.empty.fill Square.all
          (Square.all.map (ofCells cells.toArray).piece?)).piece? s := by rw [listed]
    _ = ((ofCells cells.toArray).piece? s).or (Board.empty.piece? s) := by
      rw [piece?_fill_map, if_pos s.mem_all]
    _ = (ofCells cells.toArray).piece? s := by simp

/-! ## Rows -/

def squaresOf (rank : Rank) : List Square := File.all.map fun file => ⟨file, rank⟩

theorem drop_squaresOf {n : Nat} (rank : Rank) (lt : n < 8) :
    (squaresOf rank).drop n = ⟨⟨⟨n, lt⟩⟩, rank⟩ :: (squaresOf rank).drop (n + 1) := by
  have files : ∀ i : Fin 8, File.all.drop i.val = ⟨i⟩ :: File.all.drop (i.val + 1) := by decide
  rw [squaresOf, ← List.map_drop, files ⟨n, lt⟩, List.map_cons, List.map_drop]

def fileCount (n : Nat) (le : n ≤ 8) : Bounded 0 0xff := ⟨n, by omega, by omega⟩

/-- A digit cannot overflow the byte: too great a number of files is reported first. -/
theorem scanCells_digit {rank : Rank} {text : String} {n : Nat} (le : n ≤ 8) {c : Char}
    (digit : c.isDigit = true) {rest : List Char} :
    scanCells rank text b (fileCount n le) (c :: rest) =
      if fits : n + (c.toNat - '0'.toNat) ≤ 8 then
        scanCells rank text b (fileCount (n + (c.toNat - '0'.toNat)) fits) rest
      else .error (.reading (.fenCrowdedRank rank.digit text)) := by
  -- a digit adds at most nine, so the byte never saturates and stays an exact count
  have value := (digitChar_of_isDigit digit).1
  rw [scanCells, if_pos digit]
  split
  · rename_i fits
    have sum : Bounded.saturate (by decide) ((fileCount n le).val + (c.toNat - '0'.toNat : Nat)) =
        fileCount (n + (c.toNat - '0'.toNat)) fits := by
      ext
      simp only [Bounded.val_saturate, fileCount]
      omega
    have space : ¬ 8 < (fileCount (n + (c.toNat - '0'.toNat)) fits).val := by
      simp only [fileCount]
      omega
    simp only [sum, if_neg space]
  · refine if_pos ?_
    simp only [Bounded.val_saturate, fileCount]
    omega

theorem scanCells_letter {rank : Rank} {text : String} {n : Nat} (le : n ≤ 8) {c : Char}
    (letter : ¬ c.isDigit = true) {rest : List Char} :
    scanCells rank text b (fileCount n le) (c :: rest) =
      match Piece.ofLetter c with
      | .error cause => .error (.reading cause)
      | .ok p =>
        if space : n < 8 then
          scanCells rank text (b.place p ⟨⟨⟨n, space⟩⟩, rank⟩) (fileCount (n + 1) space) rest
        else .error (.reading (.fenCrowdedRank rank.digit text)) := by
  rw [scanCells, if_neg letter]
  cases Piece.ofLetter c with
  | error cause => rfl
  | ok p =>
    by_cases space : n < 8
    · have file : File.ofIndex (fileCount n le).val.toNat = .ok ⟨⟨n, space⟩⟩ :=
        File.ofIndex_eq_ok_iff.2 rfl
      have next : (fileCount n le).add? ⟨1, by decide, by decide⟩ =
          some (fileCount (n + 1) space) := Bounded.ofInt?_eq_some_iff.2 rfl
      have free : ¬ 7 < (fileCount n le).val := by
        simp only [fileCount]
        omega
      simp only [file, next, if_neg free, dif_pos space]
      rfl
    · have full : 7 < (fileCount n le).val := by
        simp only [fileCount]
        omega
      simp only [if_pos full, dif_neg space]
      rfl

theorem readCells_cons_letter {rank : Rank} {text : String} {n : Nat} {c : Char}
    (letter : ¬ c.isDigit = true) {rest : List Char} : readCells rank text n (c :: rest) =
      match Piece.ofLetter c with
      | .error cause => .error cause
      | .ok p =>
        if n < 8 then (readCells rank text (n + 1) rest).map (some p :: ·)
        else .error (.fenCrowdedRank rank.digit text) := by
  rw [readCells, if_neg letter]
  cases Piece.ofLetter c <;> rfl

/-- The rest of a row is scanned as it is read. -/
theorem scanCells_eq {rank : Rank} {text : String} {n : Nat} (le : n ≤ 8) {row : List Char} :
    scanCells rank text b (fileCount n le) row =
      ((readCells rank text n row).map (b.fill ((squaresOf rank).drop n))).mapError .reading := by
  -- over every board, since the scan has placed its pieces by the time it reads on
  induction row generalizing b n with
  | nil =>
    have count : (fileCount n le).val = 8 ↔ n = 8 := Int.ofNat_inj
    simp only [scanCells, readCells, count]
    split
    · subst n
      rfl
    · rfl
  | cons c rest ih =>
    by_cases digit : c.isDigit = true
    · rw [scanCells_digit le digit, readCells, if_pos digit]
      by_cases fits : n + (c.toNat - '0'.toNat) ≤ 8
      · simp only [dif_pos fits, if_pos fits, ih]
        cases readCells rank text (n + (c.toNat - '0'.toNat)) rest with
        | error cause => rfl
        | ok cells =>
          refine congrArg Except.ok ?_
          rw [fill_replicate, List.drop_drop]
      · simp only [dif_neg fits, if_neg fits]
        rfl
    · rw [scanCells_letter le digit, readCells_cons_letter digit]
      cases Piece.ofLetter c with
      | error cause => rfl
      | ok p =>
        by_cases space : n < 8
        · simp only [dif_pos space, if_pos space, ih]
          rw [drop_squaresOf rank space]
          cases readCells rank text (n + 1) rest <;> rfl
        · simp only [dif_neg space, if_neg space]
          rfl

theorem length_eq_of_readRow {rank : Rank} {row : List Char} (h : readRow rank row = .ok cells) :
    cells.length = 8 := by
  have full := (readCells_eq_ok_iff.1 h).2
  rwa [Nat.zero_add] at full

/-- A row is scanned as it would be read, and what it says is placed on its rank. -/
theorem scanRows_cons {rank : Nat} (lt : rank < 8) {row : List Char} {rows : List (List Char)} :
    scanRows b rank (row :: rows) =
      (((readRow ⟨⟨rank, lt⟩⟩ row).map (b.fill (squaresOf ⟨⟨rank, lt⟩⟩))).mapError .reading).bind
        fun filled => scanRows filled (rank + 1) rows := by
  have number : Rank.ofIndex rank = .ok ⟨⟨rank, lt⟩⟩ := Rank.ofIndex_eq_ok_iff.2 rfl
  have first : scanCells ⟨⟨rank, lt⟩⟩ (String.ofList row) b ⟨0, by decide, by decide⟩ row =
      ((readRow ⟨⟨rank, lt⟩⟩ row).map (b.fill (squaresOf ⟨⟨rank, lt⟩⟩))).mapError .reading :=
    scanCells_eq (Nat.zero_le 8)
  rw [scanRows, number, ← first]
  rfl

/-- The rows of the ranks from a number on are scanned as they are read. -/
theorem scanRows_eq {rank : Nat} {rows : List (List Char)} (eight : rank + rows.length = 8) :
    scanRows b rank rows =
      ((readRows (Rank.all.drop rank) rows).map
        (b.fill ((Rank.all.drop rank).flatMap squaresOf))).mapError .reading := by
  induction rows generalizing b rank with
  | nil =>
    obtain rfl : rank = 8 := eight
    rfl
  | cons row rows ih =>
    rw [List.length_cons] at eight
    have lt : rank < 8 := by omega
    have ranks : ∀ i : Fin 8, Rank.all.drop i.val = ⟨i⟩ :: Rank.all.drop (i.val + 1) := by decide
    have here : Rank.all.drop rank = ⟨⟨rank, lt⟩⟩ :: Rank.all.drop (rank + 1) := ranks ⟨rank, lt⟩
    rw [here, scanRows_cons lt, readRows]
    cases read : readRow ⟨⟨rank, lt⟩⟩ row with
    | error cause => rfl
    | ok cells =>
      refine (ih (by omega)).trans ?_
      cases readRows (Rank.all.drop (rank + 1)) rows with
      | error cause => rfl
      | ok others =>
        -- a row that was read fills its rank, so the next one starts on the next rank
        have same : (squaresOf ⟨⟨rank, lt⟩⟩).length = cells.length :=
          (length_eq_of_readRow read).symm
        refine congrArg Except.ok ?_
        rw [List.flatMap_cons, fill_append same]

theorem length_eq_of_readRows {rows : List (List Char)} (eight : rows.length = 8)
    (h : readRows Rank.all rows = .ok cells) : cells.length = 64 := by
  have same : Rank.all.length = rows.length := eight.symm
  obtain ⟨contents, described, full, rfl⟩ := (readRows_eq_ok_iff same).1 h
  exact length_flatten_eq (described.length_eq.symm.trans eight) full

/-- A board is scanned as it is read. -/
theorem scan_eq (text : String) : scan text = (ofPlacements text).mapError .reading := by
  unfold scan ofPlacements
  by_cases eight : (text.toList.splitOn '/').length = 8
  · have upwards : (text.toList.splitOn '/').reverse.length = 8 := by
      rw [List.length_reverse, eight]
    have scanned : scanRows .empty 0 (text.toList.splitOn '/').reverse =
        ((readRows Rank.all (text.toList.splitOn '/').reverse).map
          (Board.empty.fill Square.all)).mapError .reading := scanRows_eq (by omega)
    simp only [eight, ne_eq, not_true, if_false, scanned]
    cases read : readRows Rank.all (text.toList.splitOn '/').reverse with
    | error cause => rfl
    | ok cells => exact congrArg Except.ok (fill_empty_all (length_eq_of_readRows upwards read))
  · simp only [eight, ne_eq, not_false_eq_true, if_true]
    rfl

end Board

/-! ## Squares -/

/-- Subtracts the first letter of a case from a letter of that case. -/
def File.scan (c : Char) : Except ScanFault File :=
  if c.isAlpha then
    let first := if c.isLower then 'a' else 'A'
    if c.toNat < first.toNat then .error .overflow
    else (ofIndex (c.toNat - first.toNat)).mapError .reading
  else .error (.reading (.fileChar c))

/-- Only letters of the case are subtracted from, so that no difference is negative. -/
theorem File.scan_eq (c : Char) : scan c = (ofChar c).mapError .reading := by
  have a : 'a'.toNat = 97 := rfl
  have A : 'A'.toNat = 65 := rfl
  unfold scan ofChar
  by_cases lower : c.isLower = true
  · have alpha : c.isAlpha = true := Bool.or_eq_true_iff.2 (.inr lower)
    have large : ¬ c.toNat < 'a'.toNat := by
      have := Text.isLower_iff.1 lower
      omega
    simp only [alpha, lower, if_true, if_neg large]
  by_cases upper : c.isUpper = true
  · have alpha : c.isAlpha = true := Bool.or_eq_true_iff.2 (.inl upper)
    have large : ¬ c.toNat < 'A'.toNat := by
      have := Text.isUpper_iff.1 upper
      omega
    simp only [alpha, if_true, if_neg lower, if_pos upper, if_neg large]
  · have other : ¬ c.isAlpha = true := fun alpha => (Bool.or_eq_true_iff.1 alpha).elim upper lower
    simp only [if_neg other, if_neg lower, if_neg upper]
    rfl

def Square.scan (text : String) : Except ScanFault Square :=
  match text.toList with
  | [file, rank] => do
    return ⟨← File.scan file, ← (Rank.ofChar rank).mapError .reading⟩
  | _ => .error (.reading (.squareLength text))

theorem Square.scan_eq (text : String) : scan text = (ofText text).mapError .reading := by
  unfold scan ofText
  rcases text.toList with _ | ⟨file, _ | ⟨rank, _ | ⟨_, _⟩⟩⟩
  · rfl
  · rfl
  · simp only [ofChars, File.scan_eq]
    cases File.ofChar file with
    | error cause => rfl
    | ok f => cases Rank.ofChar rank <;> rfl
  · rfl

/-! ## Positions -/

namespace Position

def scanEnPassant (text : String) : Except ScanFault (Option Square) :=
  if text = "-" then .ok none else (Square.scan text).map some

def scanFields (fields : List String) : Except ScanFault Position := do
  let some placements := fields[0]? | throw (.reading .fenEmpty)
  let board ← Board.scan placements
  let toMove ← (readColor (fields.getD 1 "w")).mapError .reading
  let rights ← (CastlingRights.ofText (fields.getD 2 "-")).mapError .reading
  let enPassant ← scanEnPassant (fields.getD 3 "-")
  let halfmove ← (readCounter .fenHalfmove (fields.getD 4 "0")).mapError .reading
  let fullmove ← (readCounter .fenFullmove (fields.getD 5 "1")).mapError .reading
  if let some extra := fields[6]? then throw (.reading (.fenTrailing extra))
  return { board, toMove, rights, enPassant, halfmove, fullmove }

def scan (text : String) : Except ScanFault Position := scanFields (Text.asciiWords text)

theorem scanEnPassant_eq (text : String) :
    scanEnPassant text = (readEnPassant text).mapError .reading := by
  unfold scanEnPassant readEnPassant
  split
  · rfl
  · rw [Square.scan_eq]
    cases Square.ofText text <;> rfl

theorem mapError_bind {ε ε' α β : Type} (x : Except ε α) (f : α → Except ε β) (g : ε → ε') :
    (x >>= f).mapError g = x.mapError g >>= fun a => (f a).mapError g := by
  cases x <;> rfl

/-- The fields are scanned as they are read. -/
theorem scanFields_eq (fields : List String) :
    scanFields fields = (ofFields fields).mapError .reading := by
  unfold scanFields ofFields
  cases fields[0]? with
  | none => rfl
  | some placements =>
    simp only [Board.scan_eq, scanEnPassant_eq, mapError_bind]
    cases fields[6]? <;> rfl

/-- Scanning a text ends as reading it does: no step leaves the byte or the board. -/
theorem scan_eq (text : String) : scan text = (ofFen text).mapError .reading :=
  scanFields_eq _

/-- A text is read if and only if it denotes a position, and then as that position. Every other
text is refused, and the reader that goes through it step by step refuses it for the same reason:
it neither overflows nor leaves the board. -/
theorem reads_iff_isDescribed (text : String) :
    (∀ p : Position, ofFen text = .ok p ↔ p.IsDescribed text) ∧
      ((∃ cause, ofFen text = .error cause) ↔ ∀ p : Position, ¬ p.IsDescribed text) ∧
      scan text = (ofFen text).mapError .reading := by
  refine ⟨fun p => ofFen_eq_ok_iff_isDescribed, ?_, scan_eq text⟩
  simp only [← ofFen_eq_ok_iff_isDescribed]
  cases ofFen text with
  | error cause => exact ⟨fun _ _ => nofun, fun _ => ⟨cause, rfl⟩⟩
  | ok p => exact ⟨nofun, fun none => absurd rfl (none p)⟩

end Position

end ChessMachine
