import ChessMachine.Arith.Word
import ChessMachine.Board.Notation

/-!
# Pieces

The two colours, the six kinds, and the pieces made of both. Every piece has a code, under which
compiled programs know it: `1` to `6` for White's pawn, knight, bishop, rook, queen and king,
`7` to `12` for Black's, and `0` for an empty square.

## Main definitions

* `Color`, `Color.opponent`, `Color.sign`.
* `PieceKind`, `PieceKind.promotions`.
* `Piece`, `Piece.code`, `Piece.ofCode?`.
* `Piece.letter`, `Piece.ofLetter` — uppercase for White, lowercase for Black.
-/
namespace ChessMachine

inductive Color where
  | white
  | black
deriving DecidableEq

namespace Color

def all : List Color := [white, black]

def index : Color → Nat
  | white => 0
  | black => 1

def opponent : Color → Color
  | white => black
  | black => white

@[simp] theorem opponent_opponent (c : Color) : c.opponent.opponent = c := by cases c <;> rfl

/-- White moves up the board and gains by high scores, Black the other way. -/
def sign : Color → Int
  | white => 1
  | black => -1

def letter : Color → Char
  | white => 'w'
  | black => 'b'

def name : Color → String
  | white => "white"
  | black => "black"

def ofLetter (c : Char) : Except NotationError Color :=
  match c.toLower with
  | 'w' => .ok white
  | 'b' => .ok black
  | _ => .error (.colorChar c)

def describe (c : Color) : String := s!"\"{c.name}\" ({c.index})"

end Color

inductive PieceKind where
  | pawn
  | knight
  | bishop
  | rook
  | queen
  | king
deriving DecidableEq

namespace PieceKind

def all : List PieceKind := [pawn, knight, bishop, rook, queen, king]

/-- What a pawn may become, in the order in which promotions are generated. -/
def promotions : List PieceKind := [queen, rook, bishop, knight]

def index : PieceKind → Fin 6
  | pawn => ⟨0, by decide⟩
  | knight => ⟨1, by decide⟩
  | bishop => ⟨2, by decide⟩
  | rook => ⟨3, by decide⟩
  | queen => ⟨4, by decide⟩
  | king => ⟨5, by decide⟩

theorem index_injective {k l : PieceKind} (h : k.index = l.index) : k = l := by
  cases k <;> cases l <;> first | rfl | exact absurd h (by decide)

def letter : PieceKind → Char
  | pawn => 'p'
  | knight => 'n'
  | bishop => 'b'
  | rook => 'r'
  | queen => 'q'
  | king => 'k'

def name : PieceKind → String
  | pawn => "pawn"
  | knight => "knight"
  | bishop => "bishop"
  | rook => "rook"
  | queen => "queen"
  | king => "king"

def ofLetter (c : Char) : Except NotationError PieceKind :=
  match c.toLower with
  | 'p' => .ok pawn
  | 'n' => .ok knight
  | 'b' => .ok bishop
  | 'r' => .ok rook
  | 'q' => .ok queen
  | 'k' => .ok king
  | _ => .error (.kindChar c)

def describe (k : PieceKind) : String := s!"\"{k.name}\" ({k.index.val})"

end PieceKind

structure Piece where
  color : Color
  kind : PieceKind
deriving DecidableEq

namespace Piece

def all : List Piece := Color.all.flatMap fun color => PieceKind.all.map fun kind => ⟨color, kind⟩

def code (p : Piece) : Nat := 6 * p.color.index + p.kind.index.val + 1

def ofCode? (code : Int) : Option Piece := all.find? fun p => p.code == code

@[simp] theorem ofCode?_code (p : Piece) : ofCode? p.code = some p := by
  obtain ⟨c, k⟩ := p
  cases c <;> cases k <;> rfl

/-- The code of what stands on a square, `0` if nothing does. -/
def codeOf : Option Piece → Nat
  | none => 0
  | some p => p.code

def isKing (p : Piece) : Bool := p.kind = .king

def promoted (p : Piece) (kind : PieceKind) : Piece := { p with kind }

def letter (p : Piece) : Char :=
  match p.color with
  | .white => p.kind.letter.toUpper
  | .black => p.kind.letter

def ofLetter (c : Char) : Except NotationError Piece := do
  return ⟨if c.isLower then .black else .white, ← PieceKind.ofLetter c⟩

def ofText (text : String) : Except NotationError Piece :=
  match text.toList with
  | [c] => ofLetter c
  | _ => .error (.pieceLength text)

def name (p : Piece) : String := s!"{p.color.name} {p.kind.name}"

def describe (p : Piece) : String := s!"\"{p.name}\" ({p.code})"

end Piece

end ChessMachine
