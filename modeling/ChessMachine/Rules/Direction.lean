import ChessMachine.Board.Square

/-!
# Directions

How the pieces move: by single jumps, or along rays that end at the edge of the board.

## Main definitions

* `Direction` — a distance in files and ranks.
* `Direction.knight`, `Direction.straight`, `Direction.diagonal`, `Direction.royal`.
* `Square.step`, `Square.ray` — one step, and all squares in a direction.
-/
namespace ChessMachine

structure Direction where
  files : Int
  ranks : Int
deriving DecidableEq

namespace Direction

def knight : List Direction :=
  [⟨1, 2⟩, ⟨2, 1⟩, ⟨2, -1⟩, ⟨1, -2⟩, ⟨-1, -2⟩, ⟨-2, -1⟩, ⟨-2, 1⟩, ⟨-1, 2⟩]

/-- The directions of a rook. -/
def straight : List Direction := [⟨0, 1⟩, ⟨1, 0⟩, ⟨0, -1⟩, ⟨-1, 0⟩]

/-- The directions of a bishop. -/
def diagonal : List Direction := [⟨1, 1⟩, ⟨1, -1⟩, ⟨-1, -1⟩, ⟨-1, 1⟩]

/-- The directions of a queen and of a king. -/
def royal : List Direction := straight ++ diagonal

/-- The two diagonal steps forward of a colour's pawns. -/
def pawn (c : Color) : List Direction := [⟨-1, c.sign⟩, ⟨1, c.sign⟩]

end Direction

namespace Square

def step (s : Square) (d : Direction) : Option Square := s.offset d.files d.ranks

/-- The first `n` squares in a direction, as far as the board reaches. -/
def steps (s : Square) (d : Direction) : Nat → List Square
  | 0 => []
  | n + 1 =>
    match s.step d with
    | some t => t :: t.steps d n
    | none => []

/-- The squares in a direction, up to the edge of the board. -/
def ray (s : Square) (d : Direction) : List Square := s.steps d 7

end Square

end ChessMachine
