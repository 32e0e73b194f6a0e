import ChessMachine.Board.Piece

/-!
# Squares

A square is a file and a rank, both counted from zero. Squares are listed rank by rank from `a1`
to `h8`, and the index in that list is the address of the square in the memory of a program.

## Main definitions

* `File`, `Rank`, `Square`, `Square.all`.
* `Square.index` — the place in the list.
* `Square.offset` — the square some files and ranks away, if the board reaches that far.
* `Square.rotated` — the square seen from the other side of the board.
* `Square.forwardBy`, `Square.backwardBy` — distances of eight signed bits.
* `Square.text`, `Square.ofText` — algebraic notation.

## Main results

* `Square.index_inj`, `Square.ofIndex_index` — the place names the square.
-/
namespace ChessMachine

/-- Moves a coordinate, unless that leads off the board. -/
def shift? (i : Fin 8) (delta : Int) : Option (Fin 8) :=
  if h : 0 ≤ (i.val : Int) + delta ∧ (i.val : Int) + delta < 8 then
    some ⟨((i.val : Int) + delta).toNat, by omega⟩
  else none

structure File where
  index : Fin 8
deriving DecidableEq

namespace File

/-! ## The eight files -/

def a : File := ⟨⟨0, by decide⟩⟩

def b : File := ⟨⟨1, by decide⟩⟩

def c : File := ⟨⟨2, by decide⟩⟩

def d : File := ⟨⟨3, by decide⟩⟩

def e : File := ⟨⟨4, by decide⟩⟩

def f : File := ⟨⟨5, by decide⟩⟩

def g : File := ⟨⟨6, by decide⟩⟩

def h : File := ⟨⟨7, by decide⟩⟩

def all : List File := [a, b, c, d, e, f, g, h]

theorem mem_all (f : File) : f ∈ all := by
  have : ∀ i : Fin 8, mk i ∈ all := by decide
  exact this f.index

/-! ## Arithmetic and notation -/

def ofIndex (n : Nat) : Except NotationError File :=
  if h : n < 8 then .ok ⟨n, h⟩ else .error (.fileIndex n)

def offset (f : File) (delta : Int) : Option File := (shift? f.index delta).map mk

def letter (f : File) : Char := Char.ofNat ('a'.toNat + f.index.val)

def ofChar (c : Char) : Except NotationError File :=
  if c.isLower then ofIndex (c.toNat - 'a'.toNat)
  else if c.isUpper then ofIndex (c.toNat - 'A'.toNat)
  else .error (.fileChar c)

def describe (f : File) : String := s!"{f.letter} ({f.index.val})"

end File

structure Rank where
  index : Fin 8
deriving DecidableEq

namespace Rank

def all : List Rank := (List.finRange 8).map mk

theorem mem_all (r : Rank) : r ∈ all := List.mem_map.2 ⟨r.index, List.mem_finRange _, rfl⟩

def ofIndex (n : Nat) : Except NotationError Rank :=
  if h : n < 8 then .ok ⟨n, h⟩ else .error (.rankIndex n)

def offset (r : Rank) (delta : Int) : Option Rank := (shift? r.index delta).map mk

def digit (r : Rank) : Char := Char.ofNat ('1'.toNat + r.index.val)

def ofChar (c : Char) : Except NotationError Rank :=
  if c.isDigit && c != '0' then ofIndex (c.toNat - '1'.toNat) else .error (.rankChar c)

def describe (r : Rank) : String := s!"{r.digit} ({r.index.val})"

/-- The rank of a colour's king and rooks at the start of a game. -/
def first : Color → Rank
  | .white => ⟨⟨0, by decide⟩⟩
  | .black => ⟨⟨7, by decide⟩⟩

/-- The rank of a colour's pawns at the start of a game. -/
def second : Color → Rank
  | .white => ⟨⟨1, by decide⟩⟩
  | .black => ⟨⟨6, by decide⟩⟩

/-- The rank on which a colour's pawns can be taken in passing. -/
def third : Color → Rank
  | .white => ⟨⟨2, by decide⟩⟩
  | .black => ⟨⟨5, by decide⟩⟩

/-- The rank on which a colour's pawns promote. -/
def eighth (c : Color) : Rank := first c.opponent

end Rank

structure Square where
  file : File
  rank : Rank
deriving DecidableEq

/-- Distances of eight signed bits. -/
abbrev Step := Bounded (-0x80) 0x7f

namespace Step

/-- The step that agrees with `n` modulo `256`. -/
def wrap (n : Nat) : Step := ⟨Int.bmod n 0x100, by
  have := @Int.le_bmod n 0x100 (by decide)
  omega, by
  have := @Int.bmod_lt n 0x100 (by decide)
  omega⟩

def forward : Color → Step
  | .white => ⟨1, by decide, by decide⟩
  | .black => ⟨-1, by decide, by decide⟩

end Step

namespace Square

def all : List Square := Rank.all.flatMap fun rank => File.all.map fun file => ⟨file, rank⟩

theorem mem_all (s : Square) : s ∈ all :=
  List.mem_flatMap.2 ⟨s.rank, s.rank.mem_all, List.mem_map.2 ⟨s.file, s.file.mem_all, rfl⟩⟩

def index (s : Square) : Nat := 8 * s.rank.index.val + s.file.index.val

theorem index_lt (s : Square) : s.index < 64 := by
  have := s.rank.index.isLt
  have := s.file.index.isLt
  unfold index
  omega

theorem index_inj {s t : Square} : s.index = t.index ↔ s = t := by
  refine ⟨fun h => ?_, fun h => h ▸ rfl⟩
  obtain ⟨⟨⟨f, hf⟩⟩, ⟨⟨r, hr⟩⟩⟩ := s
  obtain ⟨⟨⟨g, hg⟩⟩, ⟨⟨q, hq⟩⟩⟩ := t
  simp only [index] at h
  obtain rfl : f = g := by omega
  obtain rfl : r = q := by omega
  rfl

def ofIndex (n : Nat) : Except NotationError Square :=
  if h : n < 64 then .ok ⟨⟨n % 8, by omega⟩, ⟨n / 8, by omega⟩⟩ else .error (.squareIndex n)

@[simp] theorem ofIndex_index (s : Square) : ofIndex s.index = .ok s := by
  obtain ⟨⟨⟨f, hf⟩⟩, ⟨⟨r, hr⟩⟩⟩ := s
  have file : (8 * r + f) % 8 = f := by omega
  have rank : (8 * r + f) / 8 = r := by omega
  have bound : 8 * r + f < 64 := by omega
  simp [ofIndex, index, file, rank, bound]

/-- The square `files` to the right and `ranks` up. -/
def offset (s : Square) (files ranks : Int) : Option Square :=
  match s.file.offset files, s.rank.offset ranks with
  | some file, some rank => some ⟨file, rank⟩
  | _, _ => none

/-- The same square after half a turn of the board. -/
def rotated (s : Square) : Square := ⟨⟨s.file.index.rev⟩, ⟨s.rank.index.rev⟩⟩

@[simp] theorem rotated_rotated (s : Square) : s.rotated.rotated = s := by simp [rotated]

theorem index_rotated (s : Square) : s.rotated.index = 63 - s.index := by
  simp only [rotated, index, Fin.val_rev]
  omega

/-- The square as a colour sees it from its own side. -/
def orientedFor (s : Square) : Color → Square
  | .white => s
  | .black => s.rotated

/-- The square `n` ranks ahead, as a colour's pawns walk. -/
def ahead (s : Square) (c : Color) (n : Nat) : Option Square := s.offset 0 (n * c.sign)

def behind (s : Square) (c : Color) : Option Square := s.offset 0 (-c.sign)

/-- The square `n` ranks ahead, where the distance is computed in steps. -/
def forwardBy (s : Square) (c : Color) (n : Nat) : Except Overflow (Option Square) := do
  let step ← Overflow.mul.check ((Step.wrap n).mul? (Step.forward c))
  return s.offset 0 step.val

/-- The square `n` ranks behind, where the distance is computed in steps. -/
def backwardBy (s : Square) (c : Color) (n : Nat) : Except Overflow (Option Square) := do
  let back ← Overflow.neg.check (Step.wrap n).neg?
  let step ← Overflow.mul.check (back.mul? (Step.forward c))
  return s.offset 0 step.val

def chars (s : Square) : List Char := [s.file.letter, s.rank.digit]

def text (s : Square) : String := String.ofList s.chars

instance : ToString Square := ⟨text⟩

def ofChars (file rank : Char) : Except NotationError Square := do
  return ⟨← File.ofChar file, ← Rank.ofChar rank⟩

def ofText (text : String) : Except NotationError Square :=
  match text.toList with
  | [file, rank] => ofChars file rank
  | _ => .error (.squareLength text)

def describe (s : Square) : String := s!"{s.text} ({s.index})"

end Square

end ChessMachine
