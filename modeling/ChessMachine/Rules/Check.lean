import ChessMachine.Board.Position
import ChessMachine.Machine.Code
import ChessMachine.Rules.Direction

/-!
# Check

Whether a king is attacked is found out by a program of the machine. The king is located when
the program is written, so that the program looks at fixed cells of the board only.

## Main definitions

* `Board.snapshot` — writes the board to memory.
* `Position.checkCode`, `Position.checkProgram` — the program.
* `Position.inCheck` — its answer.
-/
namespace ChessMachine

def Square.cell (s : Square) : Nat := Layout.board + s.index

/-- Writes the code of every square into its cell. -/
def Board.snapshot (b : Board) : Code :=
  Code.block (Square.all.flatMap fun s =>
    [.push (.ofNat (Piece.codeOf (b.piece? s))), .store s.cell])

namespace Position

/-- The cell that says whether an attacker was found. -/
def attackedCell : Nat := Layout.counter

/-- Notes whether one of the attackers stands on a square. -/
def testSquare (attackers : List Piece) (s : Square) : Code :=
  Code.block (attackers.flatMap fun attacker =>
    [.load s.cell, .push (.ofNat attacker.code), .eq, .load attackedCell, .or, .store attackedCell])

/-- Tests the squares of a ray up to the first occupied one. -/
def scanRay (attackers : List Piece) : List Square → Code
  | [] => .block []
  | [s] => testSquare attackers s
  | s :: rest =>
    testSquare attackers s ++
      .guarded (Code.block [.load s.cell, .push 0, .eq]) (scanRay attackers rest)

/-- Tests every attack on a king of colour `c` on the square `king`. -/
def testKing (c : Color) (king : Square) : Code :=
  let enemy (kind : PieceKind) : Piece := ⟨c.opponent, kind⟩
  let jumps (directions : List Direction) (kind : PieceKind) : Code :=
    Code.all ((directions.filterMap king.step).map (testSquare [enemy kind]))
  let rays (directions : List Direction) (kind : PieceKind) : Code :=
    Code.all (directions.map fun d => scanRay [enemy kind, enemy .queen] (king.ray d))
  jumps (Direction.pawn c) .pawn ++ jumps Direction.knight .knight ++ jumps Direction.royal .king
    ++ rays Direction.straight .rook ++ rays Direction.diagonal .bishop

/-- Prints `1` if the king of colour `c` is attacked, else `0`, also if there is none. -/
def checkCode (p : Position) (c : Color) : Code :=
  match p.king? c with
  | none => Code.block [.push 0, .print]
  | some king =>
    p.board.snapshot ++ Code.block [.push 0, .store attackedCell] ++ testKing c king
      ++ Code.block [.load attackedCell, .print, .halt]

def checkProgram (p : Position) (c : Color) : Except Fault Program := (p.checkCode c).compile

def inCheck (p : Position) (c : Color) : Except Fault Bool := do
  match ← (← p.checkProgram c).execute with
  | ["1"] => return true
  | ["0"] => return false
  | output => throw (.malformedOutput output)

end Position

end ChessMachine
