import ChessMachine.Board.Position
import ChessMachine.Text.Blank
import ChessMachine.Text.Numeral

/-!
# Forsyth-Edwards notation

A position is written in six fields: the rows of the board from the eighth rank to the first,
the side to move, the castling rights, the en passant square, and the two counters. Trailing
fields may be left out when a position is read.

## Main definitions

* `Position.fen` — the notation of a position.
* `Position.ofFen` — the position that a text denotes.
* `Position.start` — the position at the start of a game.
-/
namespace ChessMachine

namespace Board

/-! ## Writing -/

/-- The number of empty squares in a run, if there are any. -/
def runChars (n : Nat) : List Char := if n = 0 then [] else Nat.toDigits 10 n

/-- A row after `run` empty squares. -/
def rowChars (run : Nat) : List (Option Piece) → List Char
  | [] => runChars run
  | none :: rest => rowChars (run + 1) rest
  | some p :: rest => runChars run ++ p.letter :: rowChars 0 rest

/-- What stands on a rank, from the `a` file on. -/
def row (b : Board) (rank : Rank) : List (Option Piece) :=
  File.all.map fun file => b.piece? ⟨file, rank⟩

def placements (b : Board) : List Char :=
  List.intercalate ['/'] (Rank.all.reverse.map fun rank => rowChars 0 (b.row rank))

/-! ## Reading -/

/-- Reads what follows `files` squares of the row `text`. -/
def readCells (rank : Rank) (text : String) (files : Nat) :
    List Char → Except NotationError (List (Option Piece))
  | [] => if files = 8 then .ok [] else .error (.fenShortRank rank.digit text)
  | c :: rest =>
    if c.isDigit then
      let run := c.toNat - '0'.toNat
      if files + run ≤ 8 then do
        return List.replicate run none ++ (← readCells rank text (files + run) rest)
      else .error (.fenCrowdedRank rank.digit text)
    else do
      let p ← Piece.ofLetter c
      if files < 8 then return some p :: (← readCells rank text (files + 1) rest)
      else throw (.fenCrowdedRank rank.digit text)

def readRow (rank : Rank) (row : List Char) : Except NotationError (List (Option Piece)) :=
  readCells rank (String.ofList row) 0 row

/-- Reads rows, which go with the given ranks. -/
def readRows : List Rank → List (List Char) → Except NotationError (List (Option Piece))
  | rank :: ranks, row :: rows => do return (← readRow rank row) ++ (← readRows ranks rows)
  | _, _ => .ok []

/-- Reads the rows of a board. The row of the first rank comes last and is read first. -/
def ofPlacements (text : String) : Except NotationError Board := do
  let rows := text.toList.splitOn '/'
  if rows.length ≠ 8 then throw .fenRanks
  return ofCells (← readRows Rank.all rows.reverse).toArray

end Board

namespace Position

def fenChars (p : Position) : List Char :=
  List.intercalate [' ']
    [p.board.placements, [p.toMove.letter], p.rights.chars,
      (p.enPassant.map Square.chars).getD ['-'],
      Nat.toDigits 10 p.halfmove.toNat, Nat.toDigits 10 p.fullmove.toNat]

def fen (p : Position) : String := String.ofList p.fenChars

def readColor (text : String) : Except NotationError Color :=
  if text = "w" then .ok .white
  else if text = "b" then .ok .black
  else .error (.fenColor text)

def readEnPassant (text : String) : Except NotationError (Option Square) :=
  if text = "-" then .ok none else (Square.ofText text).map some

def readCounter (error : String → NotationError) (text : String) : Except NotationError UInt64 :=
  match Text.counter? text with
  | some n => .ok n
  | none => .error (error text)

def ofFields (fields : List String) : Except NotationError Position := do
  let some placements := fields[0]? | throw .fenEmpty
  let board ← Board.ofPlacements placements
  let toMove ← readColor (fields.getD 1 "w")
  let rights ← CastlingRights.ofText (fields.getD 2 "-")
  let enPassant ← readEnPassant (fields.getD 3 "-")
  let halfmove ← readCounter .fenHalfmove (fields.getD 4 "0")
  let fullmove ← readCounter .fenFullmove (fields.getD 5 "1")
  if let some extra := fields[6]? then throw (.fenTrailing extra)
  return { board, toMove, rights, enPassant, halfmove, fullmove }

def ofFen (text : String) : Except NotationError Position := ofFields (Text.asciiWords text)

def empty : Position := ⟨.empty, .white, .empty, none, 0, 1⟩

def startFen : String := "rnbqkbnr/pppppppp/8/8/8/8/PPPPPPPP/RNBQKBNR w KQkq - 0 1"

/-- A position rich in special moves. -/
def kiwipeteFen : String := "r3k2r/p1ppqpb1/bn2pnp1/3PN3/1p2P3/2N2Q1p/PPPBBPPP/R3K2R w KQkq - 0 1"

def start : Position := (ofFen startFen).toOption.getD empty

end Position

end ChessMachine
