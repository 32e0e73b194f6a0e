import ChessMachine.Evaluation.Score
import ChessMachine.Evaluation.Weights
import ChessMachine.Rules.Check
import ChessMachine.Text.Numeral

/-!
# Evaluation

A position is evaluated by a program of the machine. It adds up the values of the pieces, with
Black's negated, counts the occupied squares for mobility and the enemy pieces next to the king
of the side to move for its safety, and prints the total.

## Main definitions

* `Position.evalCode`, `Position.evalProgram` — the program.
* `Position.evaluate` — the score that it prints.
-/
namespace ChessMachine

/-- Points for each occupied square. -/
def mobilityWeight : Int := 2

/-- Points lost by the side to move for each enemy piece next to its king. -/
def kingSafetyWeight : Int := 20

namespace Position

open Layout

/-- The value that a piece adds for White. -/
def materialCode (w : Weights) (p : Position) : Code :=
  Code.block [.push 0] ++
    Code.block (p.pieces.flatMap fun (s, piece) =>
      [.push (w.wordOf piece s), .push (.wrap piece.color.sign), .mul, .add]) ++
    Code.block [.store total]

/-- Counts the occupied cells of the board. -/
def occupiedCode : Code :=
  Code.block [.push 0, .store scratch] ++
    .loop counter (.literal (.ofNat 64))
      (.guarded
        (Code.block
          [.load counter, .push (.ofNat Layout.board), .add, .loadIndirect, .push 0, .neq])
        (Code.increment scratch))

/-- Adds a multiple of a cell to the total. -/
def addMultiple (cell : Nat) (weight : Int) : Code :=
  Code.block [.load total, .load cell, .push (.wrap weight), .mul, .add, .store total]

/-- Leaves whether a piece of colour `c` stands on a square. -/
def holdsColor (c : Color) (s : Square) : Code :=
  let lowest := (Piece.mk c .pawn).code
  let highest := (Piece.mk c .king).code
  Code.block
    [.load s.cell, .push (.wrap (lowest - 1)), .gt, .load s.cell, .push (.wrap (highest + 1)), .lt,
      .and]

/-- Counts the pieces of the other colour next to a king. -/
def neighboursCode (c : Color) (king : Square) : Code :=
  Code.block [.push 0, .store kingSafety] ++
    Code.all ((Direction.royal.filterMap king.step).map fun s =>
      .guarded (holdsColor c.opponent s) (Code.increment kingSafety))

/-- Prints the evaluation. A side to move without a king counts as mated. -/
def evalCode (w : Weights) (p : Position) : Code :=
  match p.king? p.toMove with
  | none => Code.block [.push (.wrap (Score.mated p.toMove).val), .print]
  | some king =>
    materialCode w p ++ p.board.snapshot ++ occupiedCode ++ addMultiple scratch mobilityWeight
      ++ neighboursCode p.toMove king
      ++ addMultiple kingSafety (-kingSafetyWeight * p.toMove.sign)
      ++ Code.block [.load total, .print, .halt]

def evalProgram (w : Weights) (p : Position) : Except Fault Program := (p.evalCode w).compile

def evaluate (w : Weights) (p : Position) : Except Fault Score := do
  let output ← (← p.evalProgram w).execute
  match output with
  | [token] =>
    match Text.word? token with
    | some n => return Score.clamped n.val
    | none => throw (.malformedOutput output)
  | _ => throw (.malformedOutput output)

end Position

end ChessMachine
