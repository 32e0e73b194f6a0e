import ChessMachine.Rules.Check
import ChessMachine.Rules.Failure
import ChessMachine.Rules.PseudoLegal

/-!
# Legal moves

A pseudo-legal move is legal if the mover's king is not attacked after it. A king castles neither
out of check nor across an attacked square.

## Main definitions

* `Position.isLegal` — whether a pseudo-legal move is legal.
* `Position.legalMoves` — the legal moves, in the order of the pseudo-legal ones.
-/
namespace ChessMachine

namespace Position

/-- Whether a king moves two files. -/
def isCastling (p : Position) (m : Move) : Bool :=
  (p.piece? m.src).any Piece.isKing && m.fileDistance = 2

/-- The square that a castling king crosses. -/
def transit? (m : Move) : Option Square :=
  m.src.offset (if m.src.file.index < m.dst.file.index then 1 else -1) 0

/-- The position in which the king stands on the square that it crosses. -/
def halfway (p : Position) (m : Move) (transit : Square) : Position :=
  { p with board := p.board.carry m.src transit }

/-- Whether a king that castles is attacked neither at home nor on its way. -/
def isPathSafe (p : Position) (m : Move) : Except Fault Bool := do
  if ← p.inCheck p.toMove then return false
  match transit? m with
  | none => return false
  | some transit => return !(← (p.halfway m transit).inCheck p.toMove)

/-- Whether the king is safe, given a pseudo-legal move. -/
def isLegal (p : Position) (m : Move) : Except Failure Bool := do
  if p.isCastling m then
    if !(← p.isPathSafe m) then return false
  return !(← (← p.play m).inCheck p.toMove)

/-- Adds the legal ones of further moves to those found so far. -/
def addLegal (p : Position) (found : Array Move) : List Move → Except Failure (Array Move)
  | [] => .ok found
  | m :: rest => do
    if ← p.isLegal m then
      if found.size < moveCapacity then p.addLegal (found.push m) rest
      else throw (.fault (.moveListFull moveCapacity))
    else p.addLegal found rest

def legalMoves (p : Position) : Except Failure (List Move) := do
  return (← p.addLegal #[] p.pseudoLegalMoves).toList

end Position

end ChessMachine
