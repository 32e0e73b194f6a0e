import ChessMachine.Proofs.Board.FenScan
import ChessMachine.Proofs.Board.MoveText

/-!
# Moves read from text

A text is read as a move exactly if it is the text of that move up to the case of its letters. A
reader that cuts the text at fixed numbers of bytes ends in the same way: every text that it could
cut inside a character has been refused by then.

## Main definitions

* `Text.cut?` — a part of a text, between two numbers of bytes.
* `Move.scan` — the reader that cuts.

## Main results

* `Move.ofText_eq_ok_iff` — a text is read as a move if it is the text of that move in lower case.
* `Move.scan_eq` — the reader that cuts never cuts a character.
* `Move.reads_iff_toLower_eq` — which texts are read, and as what.
-/
namespace ChessMachine

/-! ## Cutting texts -/

namespace Text

/-- The part of a text between two places, which are numbers of bytes. There is none if a place is
inside a character or behind the text, or if the places are in the wrong order. -/
def cut? (text : String) (start stop : Nat) : Option String := do
  let first ← text.pos? ⟨start⟩
  let last ← text.pos? ⟨stop⟩
  if first ≤ last then return text.extract first last else none

theorem pos?_eq_some {text : String} {place : String.Pos.Raw} (valid : place.IsValid text) :
    text.pos? place = some (text.pos place valid) := by
  unfold String.pos? String.Slice.pos?
  rw [dif_pos (String.Pos.Raw.isValidForSlice_eq_true_iff.2 valid.toSlice)]
  rfl

/-- Joined texts are cut where they were joined. -/
theorem cut?_append (before part after : String) :
    cut? (before ++ (part ++ after)) before.utf8ByteSize
      (before.utf8ByteSize + part.utf8ByteSize) = some part := by
  have first : (String.Pos.Raw.mk before.utf8ByteSize).IsValid (before ++ (part ++ after)) :=
    String.Pos.Raw.isValid_iff_exists_append.2 ⟨before, part ++ after, rfl, rfl⟩
  have last : (String.Pos.Raw.mk (before.utf8ByteSize + part.utf8ByteSize)).IsValid
      (before ++ (part ++ after)) :=
    String.Pos.Raw.isValid_iff_exists_append.2
      ⟨before ++ part, after, String.append_assoc.symm, by ext; simp⟩
  have le : String.pos _ _ first ≤ String.pos _ _ last := by
    simp [String.Pos.le_iff, String.Pos.Raw.le_iff]
  rw [cut?, pos?_eq_some first, pos?_eq_some last]
  simp only [Option.bind_eq_bind, Option.bind_some, if_pos le]
  refine congrArg some (String.toByteArray_inj.1 ?_)
  rw [String.toByteArray_extract, String.toByteArray_append, String.toByteArray_append]
  calc (before.toByteArray ++ (part.toByteArray ++ after.toByteArray)).extract
        before.utf8ByteSize (before.utf8ByteSize + part.utf8ByteSize)
    _ = (part.toByteArray ++ after.toByteArray).extract 0 part.utf8ByteSize :=
      ByteArray.extract_append_size_add' (i := 0) String.size_toByteArray.symm
    _ = part.toByteArray := ByteArray.extract_append_eq_left String.size_toByteArray.symm

example : cut? "é2é4" 0 1 = none ∧ cut? "é2é4" 0 2 = some "é" := by decide

/-- In ASCII, characters are bytes. -/
theorem utf8ByteSize_ofList {cs : List Char} (ascii : ∀ c ∈ cs, c.toNat < 128) :
    (String.ofList cs).utf8ByteSize = cs.length := by
  induction cs with
  | nil => rfl
  | cons c cs ih =>
    obtain ⟨first, others⟩ := List.forall_mem_cons.1 ascii
    have one : c.utf8Size = 1 := Char.utf8Size_eq_one_iff.2 (Nat.le_of_lt_succ first)
    rw [String.ofList_cons, String.utf8ByteSize_append, String.utf8ByteSize_singleton, ih others,
      one, List.length_cons, Nat.add_comm]

/-- In ASCII a cut between two bytes is one between two characters. -/
theorem cut?_ofList (before part after : List Char)
    (ascii : ∀ c ∈ before ++ part ++ after, c.toNat < 128) :
    cut? (String.ofList (before ++ part ++ after)) before.length (before.length + part.length)
      = some (String.ofList part) := by
  have cut := cut?_append (String.ofList before) (String.ofList part) (String.ofList after)
  rwa [utf8ByteSize_ofList fun c mem => ascii c (by simp [mem]),
    utf8ByteSize_ofList fun c mem => ascii c (by simp [mem]), ← String.ofList_append,
    ← String.ofList_append, ← List.append_assoc] at cut

theorem toList_toLower (text : String) : text.toLower.toList = text.toList.map Char.toLower :=
  String.toList_map

/-- A character is one of ASCII if it is in lower case. -/
theorem toNat_lt_of_toLower {c : Char} (ascii : c.toLower.toNat < 128) : c.toNat < 128 := by
  by_cases upper : c.isUpper = true
  · have := isUpper_iff.1 upper
    omega
  · have same : c.toLower = c := by
      unfold Char.toLower
      refine dif_neg fun range => upper ?_
      unfold Char.isUpper
      simpa using range
    rwa [same] at ascii

end Text

/-! ## Characters in either case -/

theorem File.toLower_eq_letter_iff {f : File} {c : Char} :
    c.toLower = f.letter ↔ c = f.letter ∨ c = f.letter.toUpper := by
  have small : ∀ i : Fin 8, (letter ⟨i⟩).toLower = letter ⟨i⟩ := by decide
  have large : ∀ i : Fin 8, (letter ⟨i⟩).toUpper.toLower = letter ⟨i⟩ := by decide
  constructor
  · intro lower
    rw [← lower]
    exact Text.eq_toLower_or_eq_toUpper c
  · rintro (rfl | rfl)
    · exact small f.index
    · exact large f.index

theorem Rank.toLower_eq_digit_iff {r : Rank} {c : Char} : c.toLower = r.digit ↔ c = r.digit := by
  have small : ∀ i : Fin 8, (digit ⟨i⟩).toLower = digit ⟨i⟩ := by decide
  have large : ∀ i : Fin 8, (digit ⟨i⟩).toUpper = digit ⟨i⟩ := by decide
  constructor
  · intro lower
    have same := Text.eq_toLower_or_eq_toUpper c
    rwa [lower, large r.index, or_self] at same
  · rintro rfl
    exact small r.index

/-- A square is read from its file and rank in either case. -/
theorem Square.ofChars_eq_ok_iff_toLower {s : Square} {file rank : Char} :
    ofChars file rank = .ok s ↔ [file, rank].map Char.toLower = s.chars := by
  rw [ofChars_eq_ok_iff, ← File.toLower_eq_letter_iff, ← Rank.toLower_eq_digit_iff]
  simp [chars]

namespace Move

variable {text whole : String} {a b c d : Char} {rest : List Char} {m : Move}
  {promotion : Option PieceKind} {kind : PieceKind}

theorem promotionOf_eq_ok_iff :
    promotionOf whole c = .ok kind ↔ kind ∈ PieceKind.promotions ∧ c.toLower = kind.letter := by
  rw [promotionOf, bind_eq_ok_iff]
  constructor
  · rintro ⟨k, read, known⟩
    split at known
    · rename_i mem
      obtain rfl := Except.ok.inj known
      exact ⟨mem, PieceKind.ofLetter_eq_ok_iff.1 read⟩
    · cases known
  · rintro ⟨mem, lower⟩
    exact ⟨kind, PieceKind.ofLetter_eq_ok_iff.2 lower, if_pos mem⟩

/-- Reads what stands behind the squares: nothing, or the letter of a promotion. -/
def readPromotion (whole : String) : List Char → Except NotationError (Option PieceKind)
  | [] => .ok none
  | c :: _ => (promotionOf whole c).map some

/-- A promotion is read in either case, but only to a kind that a pawn may become. -/
theorem readPromotion_eq_ok_iff (short : rest.length ≤ 1) :
    readPromotion whole rest = .ok promotion ↔
      (∀ kind, promotion = some kind → kind ∈ PieceKind.promotions) ∧
        rest.map Char.toLower = (promotion.map PieceKind.letter).toList := by
  rcases rest with _ | ⟨c, _ | _⟩
  · cases promotion <;> simp [readPromotion]
  · rw [readPromotion]
    cases promotion with
    | none => cases promotionOf whole c <;> simp [Except.map]
    | some kind =>
      have read : (promotionOf whole c).map some = .ok (some kind) ↔
          promotionOf whole c = .ok kind := by
        cases promotionOf whole c <;> simp [Except.map]
      rw [read, promotionOf_eq_ok_iff]
      simp
  · simp at short

/-! ## Texts -/

/-- Four or five characters of ASCII, listed one by one. -/
structure HasShape (text : String) (a b c d : Char) (rest : List Char) : Prop where
  chars : text.toList = a :: b :: c :: d :: rest
  short : rest.length ≤ 1
  ascii : ∀ c ∈ text.toList, c.toNat < 128

/-- A text has the shape if it passes the first test of the reader: four or five bytes of ASCII. -/
theorem exists_hasShape_iff : (∃ a b c d rest, HasShape text a b c d rest) ↔
    text.toList.all (·.toNat < 128) ∧ 4 ≤ text.utf8ByteSize ∧ text.utf8ByteSize ≤ 5 := by
  simp only [List.all_eq_true, decide_eq_true_eq]
  constructor
  · rintro ⟨a, b, c, d, rest, chars, short, ascii⟩
    have size := Text.utf8ByteSize_ofList ascii
    rw [String.ofList_toList, chars] at size
    simp only [List.length_cons] at size
    exact ⟨ascii, by omega, by omega⟩
  · rintro ⟨ascii, lo, hi⟩
    have size := Text.utf8ByteSize_ofList ascii
    rw [String.ofList_toList] at size
    rcases chars : text.toList with _ | ⟨a, _ | ⟨b, _ | ⟨c, _ | ⟨d, rest⟩⟩⟩⟩
    iterate 4
      simp only [chars, List.length_cons, List.length_nil] at size
      omega
    simp only [chars, List.length_cons] at size
    exact ⟨a, b, c, d, rest, chars, by omega, ascii⟩

/-- A text of the shape is read part by part. -/
theorem ofText_of_hasShape (h : HasShape text a b c d rest) :
    ofText text = do
      return ⟨← Square.ofChars a b, ← Square.ofChars c d, ← readPromotion text rest⟩ := by
  have all : text.toList.all (·.toNat < 128) = true :=
    List.all_eq_true.2 fun c mem => decide_eq_true (h.ascii c mem)
  rw [ofText, if_pos all, h.chars]
  rcases rest with _ | ⟨e, _ | _⟩
  · rfl
  · refine bind_congr fun src => bind_congr fun dst => ?_
    rw [readPromotion]
    cases promotionOf text e <;> rfl
  · exact absurd h.short (by simp)

/-- Any other text is refused for its length. -/
theorem ofText_of_not_hasShape (h : ¬ ∃ a b c d rest, HasShape text a b c d rest) :
    ofText text = .error (.moveLength text) := by
  rw [ofText]
  split
  · rename_i all
    have ascii : ∀ c ∈ text.toList, c.toNat < 128 :=
      fun c mem => of_decide_eq_true (List.all_eq_true.1 all c mem)
    split
    · rename_i a b c d chars
      exact absurd ⟨a, b, c, d, [], chars, Nat.zero_le 1, ascii⟩ h
    · rename_i a b c d e chars
      exact absurd ⟨a, b, c, d, [e], chars, Nat.le_refl 1, ascii⟩ h
    · rfl
  · rfl

/-- The text of a move in lower case has the shape of one. -/
theorem exists_hasShape_of_toLower (lower : text.toLower = m.text) :
    ∃ a b c d rest, HasShape text a b c d rest := by
  have chars : text.toList.map Char.toLower = m.chars := by
    rw [← Text.toList_toLower, lower, Move.text, String.toList_ofList]
  have ascii : ∀ c ∈ text.toList, c.toNat < 128 := by
    intro c mem
    have plain := isPlain_of_mem_chars (m := m) (chars ▸ List.mem_map_of_mem mem)
    have := plain.2
    exact Text.toNat_lt_of_toLower (by omega)
  -- lower case keeps the number of characters, and these are bytes
  have size := Text.utf8ByteSize_ofList ascii
  have length := congrArg List.length chars
  rw [String.ofList_toList] at size
  rw [List.length_map] at length
  have short := m.length_chars_le
  have long : 4 ≤ m.chars.length := by
    simp [Move.chars, Square.chars]
  refine exists_hasShape_iff.2 ⟨List.all_eq_true.2 fun c mem => ?_, by omega, by omega⟩
  exact decide_eq_true (ascii c mem)

/-- A text is read as a move if it is the text of that move up to the case of its letters. -/
theorem ofText_eq_ok_iff : ofText text = .ok m ↔ m.IsReadable ∧ text.toLower = m.text := by
  by_cases shape : ∃ a b c d rest, HasShape text a b c d rest
  · obtain ⟨a, b, c, d, rest, h⟩ := shape
    have lower : text.toLower = m.text ↔
        [a, b].map Char.toLower = m.src.chars ∧ [c, d].map Char.toLower = m.dst.chars ∧
          rest.map Char.toLower = (m.promotion.map PieceKind.letter).toList := by
      rw [← String.toList_inj, Text.toList_toLower, h.chars, Move.text, String.toList_ofList]
      simp [Move.chars, Square.chars, and_assoc]
    rw [lower, ← Square.ofChars_eq_ok_iff_toLower, ← Square.ofChars_eq_ok_iff_toLower,
      ofText_of_hasShape h, IsReadable]
    simp only [bind_eq_ok_iff, pure_eq_ok_iff]
    constructor
    · rintro ⟨src, readSrc, dst, readDst, promotion, readPromotion, rfl⟩
      obtain ⟨known, last⟩ := (readPromotion_eq_ok_iff h.short).1 readPromotion
      exact ⟨known, readSrc, readDst, last⟩
    · rintro ⟨known, readSrc, readDst, last⟩
      exact ⟨_, readSrc, _, readDst, _, (readPromotion_eq_ok_iff h.short).2 ⟨known, last⟩, rfl⟩
  · rw [ofText_of_not_hasShape shape]
    constructor
    · intro read
      cases read
    · rintro ⟨-, lower⟩
      exact absurd (exists_hasShape_of_toLower lower) shape

/-! ## The reader that cuts -/

/-- Cuts a text into two squares and what follows them, and reads the parts. There is no result if
a cut would be inside a character. -/
def scan (text : String) : Option (Except ScanFault Move) :=
  if text.toList.all (·.toNat < 128) ∧ 4 ≤ text.utf8ByteSize ∧ text.utf8ByteSize ≤ 5 then do
    let src ← Text.cut? text 0 2
    let dst ← Text.cut? text 2 4
    let last ← Text.cut? text 4 text.utf8ByteSize
    return do
      return ⟨← Square.scan src, ← Square.scan dst,
        ← (readPromotion text last.toList).mapError .reading⟩
  else some (.error (.reading (.moveLength text)))

/-- The parts that are cut out. -/
theorem cut?_of_hasShape (h : HasShape text a b c d rest) :
    Text.cut? text 0 2 = some (String.ofList [a, b]) ∧
      Text.cut? text 2 4 = some (String.ofList [c, d]) ∧
      Text.cut? text 4 text.utf8ByteSize = some (String.ofList rest) := by
  have ascii : ∀ x ∈ a :: b :: c :: d :: rest, x.toNat < 128 := h.chars ▸ h.ascii
  have whole : text = String.ofList (a :: b :: c :: d :: rest) := by
    rw [← h.chars, String.ofList_toList]
  have size : text.utf8ByteSize = [a, b, c, d].length + rest.length := by
    rw [whole, Text.utf8ByteSize_ofList ascii]
    exact Nat.add_comm rest.length 4
  have last := Text.cut?_ofList [a, b, c, d] rest [] (by rwa [List.append_nil])
  rw [List.append_nil, ← size] at last
  rw [whole] at last ⊢
  exact ⟨Text.cut?_ofList [] [a, b] (c :: d :: rest) ascii,
    Text.cut?_ofList [a, b] [c, d] rest ascii, last⟩

/-- The scan never cuts a character, and reads what the reader reads. -/
theorem scan_eq (text : String) : scan text = some ((ofText text).mapError .reading) := by
  by_cases shape : ∃ a b c d rest, HasShape text a b c d rest
  · rw [scan, if_pos (exists_hasShape_iff.1 shape)]
    obtain ⟨a, b, c, d, rest, h⟩ := shape
    obtain ⟨first, second, third⟩ := cut?_of_hasShape h
    have squareOf (file rank : Char) : Square.scan (String.ofList [file, rank]) =
        (Square.ofChars file rank).mapError .reading := by
      rw [Square.scan_eq, Square.ofText, String.toList_ofList]
    rw [first, second, third, ofText_of_hasShape h]
    simp only [Option.bind_eq_bind, Option.bind_some, squareOf, String.toList_ofList,
      Position.mapError_bind]
    rfl
  · rw [scan, if_neg (mt exists_hasShape_iff.2 shape), ofText_of_not_hasShape shape]
    rfl

/-- A text is read as a move if and only if the move has a promotion that texts have, if any, and
the text in lower case is that of the move. Every other text is refused, and the reader that cuts
the text by bytes refuses it for the same reason: it cuts no character. -/
theorem reads_iff_toLower_eq (text : String) :
    (∀ m : Move, ofText text = .ok m ↔ m.IsReadable ∧ text.toLower = m.text) ∧
      ((∃ cause, ofText text = .error cause) ↔
        ∀ m : Move, ¬ (m.IsReadable ∧ text.toLower = m.text)) ∧
      scan text = some ((ofText text).mapError .reading) := by
  refine ⟨fun m => ofText_eq_ok_iff, ?_, scan_eq text⟩
  simp only [← ofText_eq_ok_iff]
  cases ofText text with
  | error cause => exact ⟨fun _ _ => nofun, fun _ => ⟨cause, rfl⟩⟩
  | ok m => exact ⟨nofun, fun none => absurd rfl (none m)⟩

end Move

end ChessMachine
