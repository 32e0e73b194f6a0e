import ChessMachine.Board.Move
import ChessMachine.Proofs.Text.Letters
import ChessMachine.Proofs.Text.Words

/-!
# Moves in text

A move is read back from its text, unless it promotes to a king or a pawn, which no text does.

## Main definitions

* `Move.IsReadable` — the promotion of a move, if any, is one that texts have.

## Main results

* `Move.ofText_text` — a move is read back from its text.
* `Move.isWord_chars`, `Move.length_chars_le` — the form of the text.
-/
namespace ChessMachine

/-! ## Squares -/

theorem File.ofChar_letter : (f : File) → File.ofChar f.letter = .ok f
  | ⟨0⟩ | ⟨1⟩ | ⟨2⟩ | ⟨3⟩ | ⟨4⟩ | ⟨5⟩ | ⟨6⟩ | ⟨7⟩ => rfl

theorem Rank.ofChar_digit : (r : Rank) → Rank.ofChar r.digit = .ok r
  | ⟨0⟩ | ⟨1⟩ | ⟨2⟩ | ⟨3⟩ | ⟨4⟩ | ⟨5⟩ | ⟨6⟩ | ⟨7⟩ => rfl

theorem Square.ofChars_letter_digit (s : Square) :
    Square.ofChars s.file.letter s.rank.digit = .ok s := by
  rw [ofChars, File.ofChar_letter, Rank.ofChar_digit]
  rfl

namespace Move

/-- The move promotes to one of the kinds that a pawn may become, if it promotes at all. -/
def IsReadable (m : Move) : Prop := ∀ kind, m.promotion = some kind → kind ∈ PieceKind.promotions

theorem promotionOf_letter (whole : String) {kind : PieceKind} (h : kind ∈ PieceKind.promotions) :
    promotionOf whole kind.letter = .ok kind := by
  have read : PieceKind.ofLetter kind.letter = .ok kind := by cases kind <;> rfl
  rw [promotionOf, read]
  simp only [bind, Except.bind, if_pos h]
  rfl

/-! ## Characters -/

/-- Printable characters of ASCII. -/
def IsPlain (c : Char) : Prop := 32 < c.toNat ∧ c.toNat < 127

instance (c : Char) : Decidable (IsPlain c) := inferInstanceAs (Decidable (_ ∧ _))

theorem IsPlain.of_isAlphanum {c : Char} (h : c.isAlphanum = true) : IsPlain c := by
  unfold Char.isAlphanum Char.isAlpha at h
  simp only [Bool.or_eq_true, Text.isUpper_iff, Text.isLower_iff, Text.isDigit_iff] at h
  rw [IsPlain]
  omega

theorem isAlphanum_of_mem_square {s : Square} {c : Char} (h : c ∈ s.chars) :
    c.isAlphanum = true := by
  have letters : ∀ i : Fin 8, (File.letter ⟨i⟩).isAlphanum = true := by decide
  have digits : ∀ i : Fin 8, (Rank.digit ⟨i⟩).isAlphanum = true := by decide
  rw [Square.chars, List.mem_cons, List.mem_singleton] at h
  rcases h with rfl | rfl
  · exact letters s.file.index
  · exact digits s.rank.index

theorem isAlphanum_of_mem_chars {m : Move} {c : Char} (h : c ∈ m.chars) :
    c.isAlphanum = true := by
  have kinds (kind : PieceKind) : kind.letter.isAlphanum = true := by cases kind <;> rfl
  rw [chars, List.mem_append, List.mem_append] at h
  rcases h with (h | h) | h
  · exact isAlphanum_of_mem_square h
  · exact isAlphanum_of_mem_square h
  · cases hp : m.promotion with
    | none => simp [hp] at h
    | some kind =>
      simp only [hp, Option.map_some, Option.toList_some, List.mem_singleton] at h
      exact h ▸ kinds kind

theorem isPlain_of_mem_chars {m : Move} {c : Char} (h : c ∈ m.chars) : IsPlain c :=
  .of_isAlphanum (isAlphanum_of_mem_chars h)

theorem IsPlain.isBlank_eq_false {c : Char} (h : IsPlain c) : Text.isBlank c = false := by
  simp only [Text.isBlank, Text.blankRanges, List.any_cons, List.any_nil, Bool.or_false,
    Bool.or_eq_false_iff, Bool.and_eq_false_iff, decide_eq_false_iff_not]
  obtain ⟨lo, hi⟩ := h
  omega

theorem IsPlain.isAsciiBlank_eq_false {c : Char} (h : IsPlain c) :
    Text.isAsciiBlank c = false := by
  simp only [Text.isAsciiBlank, Bool.or_eq_false_iff, decide_eq_false_iff_not]
  refine ⟨⟨⟨⟨?_, ?_⟩, ?_⟩, ?_⟩, ?_⟩
  all_goals
    rintro rfl
    exact absurd h (by decide)

/-- Moves can be joined by blanks and told apart again. -/
theorem isWord_chars (m : Move) : Text.IsWord Text.isBlank m.chars :=
  ⟨nofun, fun _ hc => (isPlain_of_mem_chars hc).isBlank_eq_false⟩

theorem length_chars_le (m : Move) : m.chars.length ≤ 5 := by
  cases h : m.promotion <;> simp [chars, Square.chars, h]

/-- A move is read back from its text. -/
theorem ofText_text {m : Move} (h : m.IsReadable) : Move.ofText m.text = .ok m := by
  have ascii : m.chars.all (·.toNat < 128) = true := by
    refine List.all_eq_true.2 fun c hc => decide_eq_true ?_
    have := (isPlain_of_mem_chars hc).2
    omega
  have read : m.text.toList = m.chars := String.toList_ofList
  rw [ofText, read, if_pos ascii]
  obtain ⟨src, dst, promotion⟩ := m
  cases promotion with
  | none =>
    simp only [chars, Square.chars, List.cons_append, List.nil_append, Option.map_none,
      Option.toList_none, List.append_nil, Square.ofChars_letter_digit]
    rfl
  | some kind =>
    simp only [chars, Square.chars, List.cons_append, List.nil_append, Option.map_some,
      Option.toList_some, Square.ofChars_letter_digit, promotionOf_letter _ (h kind rfl)]
    rfl

end Move

end ChessMachine
