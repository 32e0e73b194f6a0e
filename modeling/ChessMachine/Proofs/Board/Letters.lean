import ChessMachine.Proofs.Board.Fen
import ChessMachine.Proofs.Text.Letters

/-!
# Letters

Which characters are read as the name of a piece, a file, a rank or a right to castle.

## Main results

* `Piece.ofLetter_eq_ok_iff`, `Square.ofText_eq_ok_iff`, `CastlingRights.ofText_eq_ok_iff` — each
  reader accepts what it should and nothing else.
-/
namespace ChessMachine

/-! ## Pieces -/

/-- A kind is read from its letter in either case. -/
theorem PieceKind.ofLetter_eq_ok_iff {c : Char} {kind : PieceKind} :
    ofLetter c = .ok kind ↔ c.toLower = kind.letter := by
  constructor
  · intro h
    unfold ofLetter at h
    split at h <;> cases h <;> assumption
  · intro h
    rw [ofLetter, h]
    cases kind <;> rfl

/-- A piece is read from its letter only, whose case tells the colour. -/
theorem Piece.ofLetter_eq_ok_iff {c : Char} {p : Piece} : ofLetter c = .ok p ↔ c = p.letter := by
  constructor
  · intro h
    obtain ⟨kind, read, piece⟩ := bind_eq_ok_iff.1 h
    have lower := PieceKind.ofLetter_eq_ok_iff.1 read
    obtain rfl := Except.ok.inj piece
    rcases Text.eq_toLower_or_eq_toUpper c with same | same
    all_goals
      rw [lower] at same
      subst same
      cases kind <;> rfl
  · rintro rfl
    exact p.ofLetter_letter

/-! ## Squares -/

namespace File

variable {f : File} {c : Char}

theorem toNat_letter : (f : File) → f.letter.toNat = 97 + f.index.val
  | ⟨0⟩ | ⟨1⟩ | ⟨2⟩ | ⟨3⟩ | ⟨4⟩ | ⟨5⟩ | ⟨6⟩ | ⟨7⟩ => rfl

theorem toNat_toUpper_letter : (f : File) → f.letter.toUpper.toNat = 65 + f.index.val
  | ⟨0⟩ | ⟨1⟩ | ⟨2⟩ | ⟨3⟩ | ⟨4⟩ | ⟨5⟩ | ⟨6⟩ | ⟨7⟩ => rfl

theorem ofIndex_eq_ok_iff {n : Nat} : ofIndex n = .ok f ↔ n = f.index.val := by
  obtain ⟨i, lt⟩ := f
  unfold ofIndex
  split <;> simp [Fin.ext_iff]
  omega

/-- A file is read from its letter in either case. -/
theorem ofChar_eq_ok_iff : ofChar c = .ok f ↔ c = f.letter ∨ c = f.letter.toUpper := by
  have small := f.index.isLt
  rw [← Char.toNat_inj, ← Char.toNat_inj (d := f.letter.toUpper), toNat_letter,
    toNat_toUpper_letter, ofChar]
  by_cases isLower : c.isLower = true
  · have a : 'a'.toNat = 97 := rfl
    have := Text.isLower_iff.1 isLower
    rw [if_pos isLower, ofIndex_eq_ok_iff]
    omega
  by_cases isUpper : c.isUpper = true
  · have a : 'A'.toNat = 65 := rfl
    have := Text.isUpper_iff.1 isUpper
    rw [if_neg isLower, if_pos isUpper, ofIndex_eq_ok_iff]
    omega
  · rw [if_neg isLower, if_neg isUpper]
    rw [Text.isLower_iff] at isLower
    rw [Text.isUpper_iff] at isUpper
    refine ⟨nofun, fun h => ?_⟩
    omega

end File

namespace Rank

variable {r : Rank} {c : Char}

theorem toNat_digit : (r : Rank) → r.digit.toNat = 49 + r.index.val
  | ⟨0⟩ | ⟨1⟩ | ⟨2⟩ | ⟨3⟩ | ⟨4⟩ | ⟨5⟩ | ⟨6⟩ | ⟨7⟩ => rfl

theorem ofIndex_eq_ok_iff {n : Nat} : ofIndex n = .ok r ↔ n = r.index.val := by
  obtain ⟨i, lt⟩ := r
  unfold ofIndex
  split <;> simp [Fin.ext_iff]
  omega

/-- A rank is read from its digit. -/
theorem ofChar_eq_ok_iff : ofChar c = .ok r ↔ c = r.digit := by
  have small := r.index.isLt
  have digit : (c.isDigit && c != '0') = true ↔ 49 ≤ c.toNat ∧ c.toNat ≤ 57 := by
    have zero : '0'.toNat = 48 := rfl
    rw [Bool.and_eq_true, Text.isDigit_iff, bne_iff_ne, ne_eq, ← Char.toNat_inj, zero]
    omega
  rw [← Char.toNat_inj, toNat_digit, ofChar]
  by_cases isDigit : (c.isDigit && c != '0') = true
  · have one : '1'.toNat = 49 := rfl
    have := digit.1 isDigit
    rw [if_pos isDigit, ofIndex_eq_ok_iff]
    omega
  · rw [if_neg isDigit]
    rw [digit] at isDigit
    refine ⟨nofun, fun h => ?_⟩
    omega

end Rank

namespace Square

variable {s : Square} {text : String}

theorem ofChars_eq_ok_iff {file rank : Char} : ofChars file rank = .ok s ↔
    (file = s.file.letter ∨ file = s.file.letter.toUpper) ∧ rank = s.rank.digit := by
  rw [← File.ofChar_eq_ok_iff, ← Rank.ofChar_eq_ok_iff, ofChars, bind_eq_ok_iff]
  constructor
  · rintro ⟨f, readFile, h⟩
    obtain ⟨r, readRank, square⟩ := bind_eq_ok_iff.1 h
    obtain rfl := Except.ok.inj square
    exact ⟨readFile, readRank⟩
  · rintro ⟨readFile, readRank⟩
    exact ⟨s.file, readFile, bind_eq_ok_iff.2 ⟨s.rank, readRank, rfl⟩⟩

/-- A text names a square: the letter of its file in either case, and the digit of its rank. -/
def IsNamed (s : Square) (text : List Char) : Prop :=
  text = [s.file.letter, s.rank.digit] ∨ text = [s.file.letter.toUpper, s.rank.digit]

/-- A square is read from the texts that name it, and from no others. -/
theorem ofText_eq_ok_iff : ofText text = .ok s ↔ s.IsNamed text.toList := by
  rw [ofText, IsNamed]
  split
  · rename_i file rank chars
    simp [ofChars_eq_ok_iff, or_and_right, chars]
  · rename_i other
    constructor
    · intro h
      cases h
    · rintro (h | h)
      · exact absurd h (other _ _)
      · exact absurd h (other _ _)

end Square

/-! ## Rights to castle -/

namespace CastlingRights

variable {r : CastlingRights} {whole : String} {cs : List Char}

theorem mem_order (c : Color) (w : Wing) : (c, w) ∈ order := by cases c <;> cases w <;> decide

/-- Each right has a letter of its own. -/
theorem letter_injective {c d : Color} {v w : Wing} (h : letter c v = letter d w) :
    c = d ∧ v = w := by
  cases c <;> cases v <;> cases d <;> cases w <;> first | exact ⟨rfl, rfl⟩ | cases h

theorem holds_single (c d : Color) (v w : Wing) :
    (single c v).holds d w = true ↔ letter c v = letter d w := by
  rw [single, holds_ofFn, Bool.and_eq_true, decide_eq_true_eq, decide_eq_true_eq]
  constructor
  · rintro ⟨rfl, rfl⟩
    rfl
  · intro same
    obtain ⟨rfl, rfl⟩ := letter_injective same
    exact ⟨rfl, rfl⟩

/-- Letters stand for the rights that they name, in any order and any number of times. -/
theorem ofLetters_eq_ok_iff : ofLetters whole cs = .ok r ↔
    (∀ x ∈ cs, ∃ c w, x = letter c w) ∧ ∀ c w, r.holds c w = true ↔ letter c w ∈ cs := by
  induction cs generalizing r with
  | nil =>
    have none : (∀ c w, r.holds c w = true ↔ letter c w ∈ []) ↔ empty = r := by
      simp only [List.not_mem_nil, iff_false, Bool.not_eq_true]
      refine ⟨fun h => ext_holds fun c w => ?_, ?_⟩
      · rw [h c w]
        cases c <;> cases w <;> rfl
      · rintro rfl c w
        cases c <;> cases w <;> rfl
    rw [none, ofLetters, Except.ok.injEq]
    exact (and_iff_right (List.forall_mem_nil _)).symm
  | cons x rest ih =>
    rw [ofLetters]
    split
    · rename_i color wing found
      have named := List.find?_some found
      obtain rfl : letter color wing = x := beq_iff_eq.1 named
      simp only [bind_eq_ok_iff, ih]
      constructor
      · rintro ⟨others, ⟨letters, held⟩, union⟩
        obtain rfl := Except.ok.inj union
        refine ⟨List.forall_mem_cons.2 ⟨⟨color, wing, rfl⟩, letters⟩, fun c w => ?_⟩
        rw [CastlingRights.union, holds_ofFn, Bool.or_eq_true, holds_single, held, List.mem_cons,
          eq_comm]
      · rintro ⟨letters, held⟩
        obtain ⟨-, letters⟩ := List.forall_mem_cons.1 letters
        refine ⟨ofFn fun c w => decide (letter c w ∈ rest), ⟨letters, fun c w => ?_⟩, ?_⟩
        · rw [holds_ofFn, decide_eq_true_eq]
        · refine congrArg Except.ok (ext_holds fun c w => Bool.eq_iff_iff.2 ?_)
          rw [held, CastlingRights.union, holds_ofFn, Bool.or_eq_true, holds_single, holds_ofFn,
            decide_eq_true_eq, List.mem_cons, eq_comm]
    · rename_i found
      have unknown (c : Color) (w : Wing) : x ≠ letter c w := by
        have other := List.find?_eq_none.1 found (c, w) (mem_order c w)
        exact fun same => other (beq_iff_eq.2 same.symm)
      constructor
      · intro h
        cases h
      · intro h
        obtain ⟨c, w, same⟩ := h.1 x List.mem_cons_self
        exact absurd same (unknown c w)

/-- A text denotes rights: a hyphen none, and letters those that they name. -/
def IsNamed (r : CastlingRights) (text : List Char) : Prop :=
  text = ['-'] ∧ r = empty ∨
    (∀ x ∈ text, ∃ c w, x = letter c w) ∧ ∀ c w, r.holds c w = true ↔ letter c w ∈ text

/-- Rights are read from the texts that denote them, and from no others. -/
theorem ofText_eq_ok_iff {text : String} : ofText text = .ok r ↔ r.IsNamed text.toList := by
  have hyphen : text = "-" ↔ text.toList = ['-'] := String.toList_inj.symm
  rw [ofText, IsNamed, ← hyphen]
  by_cases same : text = "-"
  · have nameless : ¬ ∀ x ∈ text.toList, ∃ c w, x = letter c w := by
      rw [hyphen.1 same, List.forall_mem_singleton]
      rintro ⟨c, w, named⟩
      cases c <;> cases w <;> cases named
    rw [if_pos same, Except.ok.injEq, eq_comm]
    exact ⟨fun h => .inl ⟨same, h⟩, fun h => h.elim And.right fun h => absurd h.1 nameless⟩
  · rw [if_neg same, ofLetters_eq_ok_iff]
    exact (or_iff_right fun h => same h.1).symm

end CastlingRights

end ChessMachine
