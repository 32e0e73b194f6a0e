import ChessMachine.Board.Position
import ChessMachine.Proofs.Rules.Failure

/-!
# Playing moves

Below the last number that the counters hold, a move can always be played.

## Main definitions

* `Position.Played` — all that a played move changes.

## Main results

* `Board.piece?_carry` — the board after a piece was carried.
* `Position.exists_play` — the position after a move of a piece.
* `Position.played_of_play` — and nothing else does change.
* `Position.piece?_boardAfter` — what stands where after a move other than castling.
-/
namespace ChessMachine

/-- What stands where after a piece has been carried. -/
theorem Board.piece?_carry {b : Board} {src : Square} {piece : Piece}
    (here : b.piece? src = some piece) (dst t : Square) :
    (b.carry src dst).piece? t
      = if t = dst then some piece else if t = src then none else b.piece? t := by
  rw [carry, here]
  simp only [piece?_place, piece?_clear]

namespace Position

variable {p : Position} {m : Move} {piece : Piece}

theorem exists_increment {n : UInt64} (h : n.toNat < 0xffffffffffffffff) :
    ∃ k, increment n = .ok k := ⟨n + 1, if_pos h⟩

/-- A piece can be moved as long as both counters can count on. -/
theorem exists_play (here : p.piece? m.src = some piece)
    (half : p.halfmove.toNat < 0xffffffffffffffff) (full : p.fullmove.toNat < 0xffffffffffffffff) :
    ∃ q, p.play m = .ok q ∧ q.board = p.boardAfter m piece ∧ q.toMove = p.toMove.opponent := by
  obtain ⟨h, counted⟩ := exists_increment half
  obtain ⟨f, turned⟩ := exists_increment full
  rw [play, here]
  simp only [counted, turned]
  split <;> split <;> exact ⟨_, rfl, rfl, rfl⟩

/-- What follows from a move of `piece`. -/
structure Played (p : Position) (m : Move) (piece : Piece) (q : Position) : Prop where
  board : q.board = p.boardAfter m piece
  toMove : q.toMove = p.toMove.opponent
  rights : q.rights = p.rightsAfter m piece
  enPassant : q.enPassant = enPassantAfter m piece
  halfmove : (if piece.kind = .pawn || p.isCapture m piece then pure 0 else increment p.halfmove)
    = .ok q.halfmove
  fullmove : (if p.toMove = .black then increment p.fullmove else pure p.fullmove)
    = .ok q.fullmove

/-- A move step by step: both counters first, and then the position that it leaves. -/
theorem play_eq (here : p.piece? m.src = some piece) : p.play m =
    (if piece.kind = .pawn || p.isCapture m piece then pure 0 else increment p.halfmove) >>=
      fun halfmove => (if p.toMove = .black then increment p.fullmove else pure p.fullmove) >>=
        fun fullmove => pure {
          board := p.boardAfter m piece
          toMove := p.toMove.opponent
          rights := p.rightsAfter m piece
          enPassant := enPassantAfter m piece
          halfmove
          fullmove } := by
  rw [play, here]
  dsimp only
  split <;> split <;> rfl

/-- A played move changes the position as `Played` says, and in no other way. -/
theorem played_of_play {q : Position} (here : p.piece? m.src = some piece)
    (h : p.play m = .ok q) : p.Played m piece q := by
  rw [play_eq here] at h
  obtain ⟨halfmove, counted, h⟩ := bind_eq_ok_iff.1 h
  obtain ⟨fullmove, turned, h⟩ := bind_eq_ok_iff.1 h
  obtain rfl := Except.ok.inj h
  exact ⟨rfl, rfl, rfl, rfl, counted, turned⟩

/-! ## The board after a move -/

theorem piece?_lifted (p : Position) (m : Move) (piece : Piece) (t : Square) :
    (p.lifted m piece).piece? t =
      if p.victim? m piece = some t ∨ t = m.src then none else p.piece? t := by
  rw [lifted]
  cases p.victim? m piece with
  | none =>
    rw [Board.piece?_clear]
    simp [Position.piece?]
  | some v =>
    rw [Board.piece?_clear, Board.piece?_clear]
    grind [Position.piece?]

/-- What stands where after a move other than castling. -/
theorem piece?_boardAfter (still : castlingWing? m piece = none) (t : Square) :
    (p.boardAfter m piece).piece? t =
      if t = m.dst then some ⟨piece.color, m.promotion.getD piece.kind⟩
      else if p.victim? m piece = some t ∨ t = m.src then none
      else p.piece? t := by
  rw [boardAfter, still, Board.piece?_place]
  simp only [piece?_lifted]

end Position

end ChessMachine
