/-!
# Memory layout

The cells that the programs of this library share.

## Main definitions

* `Layout.board` — first of the 64 cells that hold the board.
* `Layout.counter`, `Layout.scratch`, `Layout.total`, `Layout.kingSafety` — single cells.
* `Layout.charCount`, `Layout.charBuffer` — a list of moves in characters.
* `moveCapacity`, `minMemory`, `maxMemory` — the limits.
-/
namespace ChessMachine

namespace Layout

def board : Nat := 0

/-- Counts the runs of a loop, or says whether a king is attacked. -/
def counter : Nat := 100

/-- Counts occupied squares. -/
def scratch : Nat := 101

def total : Nat := 102

/-- Counts enemy pieces next to a king. -/
def kingSafety : Nat := 103

def charCount : Nat := 199

def charBuffer : Nat := 200

end Layout

/-- The most legal moves that a list of moves holds. -/
def moveCapacity : Nat := 218

/-- The smallest memory a program executes with. -/
def minMemory : Nat := 256

/-- The largest memory a program executes with: room for `moveCapacity` moves of five characters
and a space each. -/
def maxMemory : Nat := Layout.charBuffer + 6 * moveCapacity

end ChessMachine
