import ChessMachine.Board.Move
import ChessMachine.Machine.Code
import ChessMachine.Text.Blank

/-!
# Lists of moves

A list of moves leaves the machine as text: a program holds its characters in memory, prints
them one by one in a loop, and the moves are read back from what was printed.

## Main definitions

* `MoveList.code`, `MoveList.program` — prints the moves, parted by spaces.
* `MoveList.ofOutput` — reads the moves back.
* `MoveList.stream` — both, one after the other.
-/
namespace ChessMachine

namespace MoveList

open Layout

/-- The moves in coordinate notation, parted by spaces. -/
def chars (moves : List Move) : List Char := List.intercalate [' '] (moves.map Move.chars)

/-- Writes characters to memory from a cell on. -/
def storeChars (cell : Nat) : List Char → List Op
  | [] => []
  | c :: rest => .push (.ofNat c.toNat) :: .store cell :: storeChars (cell + 1) rest

/-- Prints `count` characters from memory. -/
def printChars (count : Nat) : Code :=
  .loop counter (.literal (.ofNat count))
    (Code.block [.load counter, .push (.ofNat charBuffer), .add, .loadIndirect, .printChar])

def code (moves : List Move) : Code :=
  Code.block (storeChars charBuffer (chars moves))
    ++ Code.block [.push (.ofNat moves.length), .store charCount]
    ++ printChars (chars moves).length
    ++ Code.block [.halt]

def program (moves : List Move) : Except Fault Program := (code moves).compile

/-- Reads the moves from printed tokens. -/
def ofOutput (output : List String) : Except Fault (List Move) :=
  (Text.blankWords (String.join output)).mapM fun word =>
    match Move.ofText word with
    | .ok m => .ok m
    | .error _ => .error (.malformedOutput output)

/-- The moves that come back when a list is printed. -/
def stream (moves : List Move) : Except Fault (List Move) := do
  ofOutput (← (← program moves).execute)

end MoveList

end ChessMachine
