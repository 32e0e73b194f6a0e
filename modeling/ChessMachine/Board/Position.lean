import ChessMachine.Board.Castling
import ChessMachine.Board.Move

/-!
# Positions

A position is a board and what a game remembers beside it. Playing a move asks nothing of its
legality: it carries the piece over and does what follows from that.

## Main definitions

* `Board` — what stands on each square, seen through `Board.piece?`.
* `Position` — a board, the side to move, castling rights, the en passant square, two counters.
* `Position.king?` — the first square that holds a colour's king.
* `Position.play` — the position after a move, unless a counter overflows.

## Main results

* `Board.piece?_set` — how an operation changes the view.
* `Board.ext_piece` — nothing else tells boards apart.
-/
namespace ChessMachine

structure Board where
  cells : Vector (Option Piece) 64
deriving DecidableEq

namespace Board

def empty : Board := ⟨Vector.replicate 64 none⟩

def piece? (b : Board) (s : Square) : Option Piece := getElem b.cells s.index s.index_lt

def set (b : Board) (s : Square) (content : Option Piece) : Board :=
  ⟨b.cells.set s.index content s.index_lt⟩

theorem piece?_set (b : Board) (s t : Square) (content : Option Piece) :
    (b.set s content).piece? t = if t = s then content else b.piece? t := by
  simp only [piece?, set, Vector.getElem_set, Square.index_inj, eq_comm]

@[simp] theorem piece?_empty (s : Square) : empty.piece? s = none := by simp [piece?, empty]

/-- A board is known by what stands on each square. -/
theorem ext_piece {b c : Board} (h : ∀ s, b.piece? s = c.piece? s) : b = c := by
  obtain ⟨v⟩ := b
  obtain ⟨w⟩ := c
  refine congrArg mk (Vector.ext fun i hi => ?_)
  have := h ⟨⟨⟨i % 8, by omega⟩⟩, ⟨⟨i / 8, by omega⟩⟩⟩
  have index : 8 * (i / 8) + i % 8 = i := by omega
  simpa only [piece?, Square.index, index] using this

def place (b : Board) (p : Piece) (s : Square) : Board := b.set s (some p)

theorem piece?_place (b : Board) (p : Piece) (s t : Square) :
    (b.place p s).piece? t = if t = s then some p else b.piece? t := b.piece?_set s t (some p)

def clear (b : Board) (s : Square) : Board := b.set s none

theorem piece?_clear (b : Board) (s t : Square) :
    (b.clear s).piece? t = if t = s then none else b.piece? t := b.piece?_set s t none

/-- Carries what stands on `src` to `dst`, if anything does. -/
def carry (b : Board) (src dst : Square) : Board :=
  match b.piece? src with
  | some p => (b.clear src).place p dst
  | none => b

/-- The board whose contents are listed from `a1` to `h8`. -/
def ofCells (cells : Array (Option Piece)) : Board :=
  ⟨Vector.ofFn fun i => (cells[i.val]?).join⟩

end Board

structure Position where
  board : Board
  toMove : Color
  rights : CastlingRights
  /-- Where a pawn arrives that takes in passing. -/
  enPassant : Option Square
  /-- Moves since the last capture or pawn move. -/
  halfmove : UInt64
  /-- The number of the move to come, counted in turns of both sides. -/
  fullmove : UInt64
deriving DecidableEq

namespace Position

def piece? (p : Position) (s : Square) : Option Piece := p.board.piece? s

def color? (p : Position) (s : Square) : Option Color := (p.piece? s).map Piece.color

def isOccupied (p : Position) (s : Square) : Bool := (p.piece? s).isSome

/-- The pieces and their squares, from `a1` to `h8`. -/
def pieces (p : Position) : List (Square × Piece) :=
  Square.all.filterMap fun s => (p.piece? s).map fun piece => (s, piece)

/-- The first square, from `a1` to `h8`, that holds the king of a colour. -/
def king? (p : Position) (c : Color) : Option Square :=
  Square.all.find? fun s => p.piece? s = some ⟨c, .king⟩

def place (p : Position) (piece : Piece) (s : Square) : Position :=
  { p with board := p.board.place piece s }

def clear (p : Position) (s : Square) : Position := { p with board := p.board.clear s }

def pass (p : Position) : Position := { p with toMove := p.toMove.opponent }

/-- The square of the pawn that `piece` takes in passing by a move. -/
def victim? (p : Position) (m : Move) (piece : Piece) : Option Square :=
  if piece.kind = .pawn ∧ p.enPassant = some m.dst ∧ m.src.file ≠ m.dst.file then
    m.dst.behind piece.color
  else none

/-- The wing on which `piece` castles by a move: a king that crosses two files does. -/
def castlingWing? (m : Move) (piece : Piece) : Option Wing :=
  if piece.kind = .king ∧ m.fileDistance = 2 then
    some (if m.src.file.index < m.dst.file.index then .short else .long)
  else none

/-- The board once the moving piece and a pawn taken in passing are off it. -/
def lifted (p : Position) (m : Move) (piece : Piece) : Board :=
  let board := p.board.clear m.src
  match p.victim? m piece with
  | some s => board.clear s
  | none => board

def boardAfter (p : Position) (m : Move) (piece : Piece) : Board :=
  let board := p.lifted m piece
  let board :=
    match castlingWing? m piece with
    | some w => board.carry ⟨w.rookFile, m.src.rank⟩ ⟨w.rookTarget, m.src.rank⟩
    | none => board
  board.place ⟨piece.color, m.promotion.getD piece.kind⟩ m.dst

def isCapture (p : Position) (m : Move) (piece : Piece) : Bool :=
  (m.src ≠ m.dst && p.isOccupied m.dst) || (p.victim? m piece).any p.isOccupied

def rightsAfter (p : Position) (m : Move) (piece : Piece) : CastlingRights :=
  let rights := (p.rights.remove (.revokedBy m.src)).remove (.revokedBy m.dst)
  if piece.kind = .king then rights.remove (.both piece.color) else rights

/-- The en passant square that the move of `piece` opens: one behind a pawn's double step. -/
def enPassantAfter (m : Move) (piece : Piece) : Option Square :=
  if piece.kind = .pawn ∧ m.rankDistance = 2 then m.src.ahead piece.color 1 else none

/-- One more, unless all 64 bits are set. -/
def increment (n : UInt64) : Except Overflow UInt64 :=
  if n.toNat < 0xffffffffffffffff then .ok (n + 1) else .error .add

/-- The position after a move. A move from an empty square changes nothing. -/
def play (p : Position) (m : Move) : Except Overflow Position :=
  match p.piece? m.src with
  | none => .ok p
  | some piece => do
    let halfmove ←
      if piece.kind = .pawn || p.isCapture m piece then pure 0 else increment p.halfmove
    let fullmove ← if p.toMove = .black then increment p.fullmove else pure p.fullmove
    return {
      board := p.boardAfter m piece
      toMove := p.toMove.opponent
      rights := p.rightsAfter m piece
      enPassant := enPassantAfter m piece
      halfmove
      fullmove }

def playAll (p : Position) : List Move → Except Overflow Position
  | [] => .ok p
  | m :: rest => do (← p.play m).playAll rest

end Position

end ChessMachine
