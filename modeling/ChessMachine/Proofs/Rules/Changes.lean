import ChessMachine.Proofs.Rules.Detection
import ChessMachine.Proofs.Rules.LegalMoves

/-!
# What moves change

A pseudo-legal move either castles or carries one piece, which may be promoted, may capture what
stands on its destination, and may take a pawn in passing. Nothing else changes on the board.

## Main definitions

* `Position.Changes` — the board after a pseudo-legal move.

## Main results

* `Position.Goes.other` — no move ends on a piece of the mover.
* `Position.changes_of_play` — the played move leaves that board.
* `Position.Changes.piece?_src`, `Position.Changes.piece?_eq` — what is left, and what stays.
-/
namespace ChessMachine

open Square (kingHome rookHome crossed castled)

namespace Position

variable {p q : Position} {m : Move} {c : Color} {kind : PieceKind} {src dst s : Square}
  {piece : Piece}

/-! ## Where moves lead -/

/-- No piece goes to a square that holds one of its own colour. -/
theorem Goes.other (goes : p.Goes c src kind dst) : p.color? dst ≠ some c := by
  have vacant {s : Square} (free : p.piece? s = none) : p.color? s ≠ some c := by
    simp [color?, free]
  cases goes with
  | push _ free => exact vacant free
  | doublePush _ _ _ _ empty => exact vacant empty
  | enPassant _ _ _ free => exact vacant free
  | castle _ can => exact vacant (piece?_castled can)
  | jump _ _ other | slide _ _ other => exact other
  | capture _ _ enemy =>
    rw [enemy, Ne, Option.some.injEq]
    exact c.ne_opponent.symm

/-- A piece that moves leaves its square. -/
theorem Goes.src_ne_dst (goes : p.Goes c src kind dst) (here : p.piece? src = some ⟨c, kind⟩) :
    src ≠ dst := by
  rintro rfl
  exact goes.other (congrArg (Option.map Piece.color) here)

/-- Pawns go forward. -/
theorem Goes.rank_of_pawn (goes : p.Goes c src .pawn dst) :
    (dst.rank.index.val : Int) = src.rank.index.val + c.sign ∨
      (dst.rank.index.val : Int) = src.rank.index.val + 2 * c.sign := by
  have diagonal : ∀ d ∈ Direction.pawn c, d.ranks = c.sign := by cases c <;> decide
  cases goes with
  | push step _ =>
    have := (Square.ahead_eq_some_iff.1 step).2
    omega
  | doublePush _ _ _ further _ => exact .inr (Square.ahead_eq_some_iff.1 further).2
  | capture hd step _ | enPassant hd step _ _ =>
    rw [← diagonal _ hd]
    exact .inl (Square.step_eq_some_iff.1 step).2
  | jump hd _ _ | slide hd _ _ => cases hd

/-- If the en passant square lies behind a pawn, that pawn is taken in passing. -/
theorem piece?_of_victim? (behind : ∀ e, p.enPassant = some e →
      ∃ front, e.ahead p.toMove.opponent 1 = some front ∧
        p.piece? front = some ⟨p.toMove.opponent, .pawn⟩)
    (h : p.victim? m ⟨p.toMove, kind⟩ = some s) :
    p.piece? s = some ⟨p.toMove.opponent, .pawn⟩ := by
  rw [victim?] at h
  split at h
  · rename_i passing
    obtain ⟨front, ahead, pawn⟩ := behind _ passing.2.1
    rw [Square.behind_eq_ahead] at h
    obtain rfl := Option.some.inj (ahead.symm.trans h)
    exact pawn
  · cases h

/-! ## The board -/

/-- A move that does not castle carries no rook. -/
theorem castlingWing?_eq_none (here : p.piece? m.src = some ⟨c, kind⟩)
    (still : ¬ p.isCastling m = true) : castlingWing? m ⟨c, kind⟩ = none := by
  rw [castlingWing?, if_neg]
  rintro ⟨king, two⟩
  simp_all [isCastling, Piece.isKing]

/-- The board of `q` is that of `p` after the move. -/
inductive Changes (p q : Position) (m : Move) : Prop where
  | castles {w : Wing} (move : m = .castle p.toMove w)
    (king : p.piece? (kingHome p.toMove) = some ⟨p.toMove, .king⟩)
    (can : p.canCastle p.toMove w = true)
    (board : ∀ t, q.piece? t =
      if t = castled p.toMove w then some ⟨p.toMove, .king⟩
      else if t = crossed p.toMove w then some ⟨p.toMove, .rook⟩
      else if t = rookHome p.toMove w then none
      else if t = kingHome p.toMove then none
      else p.piece? t)
  | carries {kind : PieceKind} (here : p.piece? m.src = some ⟨p.toMove, kind⟩)
    (goes : p.Goes p.toMove m.src kind m.dst) (promotes : m.Promotes p.toMove kind)
    (board : ∀ t, q.piece? t =
      if t = m.dst then some ⟨p.toMove, m.promotion.getD kind⟩
      else if p.victim? m ⟨p.toMove, kind⟩ = some t ∨ t = m.src then none
      else p.piece? t)

theorem piece?_rookHome {w : Wing} (can : p.canCastle c w = true) :
    p.piece? (rookHome c w) = some ⟨c, .rook⟩ := by
  simp only [canCastle, Bool.and_eq_true, decide_eq_true_eq] at can
  exact can.1.2

/-- A pseudo-legal move changes the board in one of these ways. -/
theorem changes_of_play (h : m ∈ p.pseudoLegalMoves) (played : p.play m = .ok q) :
    Changes p q m := by
  obtain ⟨kind, here, goes, promotes⟩ := mem_pseudoLegalMoves.1 h
  have board (t : Square) : q.piece? t = (p.boardAfter m ⟨p.toMove, kind⟩).piece? t :=
    congrArg (Board.piece? · t) (played_of_play here played).board
  by_cases castling : p.isCastling m = true
  · obtain ⟨w, rfl, king, can⟩ := eq_castle_of_mem h castling
    obtain rfl : kind = .king := by simpa [here] using king
    exact .castles rfl king can fun t =>
      (board t).trans (piece?_boardAfter_castle (piece?_rookHome can) t)
  · exact .carries here goes promotes fun t =>
      (board t).trans (piece?_boardAfter (castlingWing?_eq_none here castling) t)

namespace Changes

variable {t : Square} (changes : Changes p q m)
include changes

/-- The square that is left becomes empty. -/
theorem piece?_src : q.piece? m.src = none := by
  cases changes with
  | @castles w move _ _ board =>
    subst move
    obtain ⟨-, -, target, -, passed, corner⟩ := castlingSquares_ne p.toMove w
    rw [board, Move.castle, if_neg target.symm, if_neg passed.symm, if_neg corner.symm, if_pos rfl]
  | carries here goes _ board =>
    rw [board, if_neg (goes.src_ne_dst here), if_pos (.inr rfl)]

/-- What is neither moved nor captured stays, off the rank on which a king castles. -/
theorem piece?_eq (src : t ≠ m.src) (dst : t ≠ m.dst)
    (passed : ∀ kind, p.victim? m ⟨p.toMove, kind⟩ ≠ some t)
    (elsewhere : p.piece? m.src = some ⟨p.toMove, .king⟩ → t.rank ≠ Rank.first p.toMove) :
    q.piece? t = p.piece? t := by
  cases changes with
  | castles move king _ board =>
    subst move
    have away {s : Square} (first : s.rank = Rank.first p.toMove) : t ≠ s := by
      rintro rfl
      exact elsewhere king first
    rw [board, if_neg (away rfl), if_neg (away rfl), if_neg (away rfl), if_neg (away rfl)]
  | carries _ _ _ board =>
    rw [board, if_neg dst, if_neg (not_or.2 ⟨passed _, src⟩)]

end Changes

end Position

end ChessMachine
