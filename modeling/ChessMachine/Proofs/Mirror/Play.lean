import ChessMachine.Proofs.Board.King
import ChessMachine.Proofs.Mirror.PseudoLegal
import ChessMachine.Proofs.Rules.CheckProgram
import ChessMachine.Proofs.Rules.Soundness

/-!
# Checks and moves upside down

A king is in check if its mirror image is, provided that there is no doubt which one is meant:
of several kings, the first one counts, and which of them comes first depends on the side of the
board from which they are looked at. A move played in the image gives the image of the position
after it.

## Main definitions

* `Position.FewKings` — no colour has two kings.

## Main results

* `Position.FewKings.of_play` — no move gives a colour a second king.
* `Position.Mirrors.inCheck` — a king is in check as its image is.
* `Position.Mirrors.boardAfter`, `Position.Mirrors.of_played` — the position after a move.
-/
namespace ChessMachine

open Square (kingHome castled)

namespace Position

variable {p q p' q' : Position} {c : Color} {s : Square} {m : Move}

/-! ## Kings -/

/-- No colour has two kings. -/
def FewKings (p : Position) : Prop :=
  ∀ c s t, p.piece? s = some ⟨c, .king⟩ → p.piece? t = some ⟨c, .king⟩ → s = t

namespace FewKings

variable (few : p.FewKings)
include few

/-- Where no colour has two kings, the first one is the only one. -/
theorem king?_eq_some_iff : p.king? c = some s ↔ p.piece? s = some ⟨c, .king⟩ :=
  ⟨fun h => (Position.king?_eq_some_iff.1 h).1,
    fun here => king?_of_unique fun t => ⟨fun there => few c t s there here, (· ▸ here)⟩⟩

theorem kingAttacked_iff :
    p.KingAttacked c ↔ ∃ k, p.piece? k = some ⟨c, .king⟩ ∧ p.Attacked c k := by
  simp only [KingAttacked, few.king?_eq_some_iff]

/-- Where at most one piece was carried and no other became a king, no colour gets a second one. -/
theorem of_carried (src dst : Square)
    (kings : ∀ c t, q.piece? t = some ⟨c, .king⟩ →
      t = dst ∧ p.piece? src = some ⟨c, .king⟩ ∨ t ≠ src ∧ p.piece? t = some ⟨c, .king⟩) :
    q.FewKings := by
  intro c s t hs ht
  rcases kings c s hs with ⟨rfl, here⟩ | ⟨left, here⟩ <;>
    rcases kings c t ht with ⟨rfl, there⟩ | ⟨left', there⟩
  · rfl
  · exact absurd (few c _ _ there here) left'
  · exact absurd (few c _ _ here there) left
  · exact few c s t here there

/-- A move gives no colour a second king. -/
theorem of_play (h : m ∈ p.pseudoLegalMoves) (played : p.play m = .ok q) : q.FewKings := by
  cases changes_of_play h played with
  | @castles w move king can board =>
    refine few.of_carried (kingHome p.toMove) (castled p.toMove w) fun c t there => ?_
    rw [board] at there
    grind
  | carries here goes promotes board =>
    have moved := promotes.getD_eq_king_iff
    refine few.of_carried m.src m.dst fun c t there => ?_
    rw [board] at there
    grind

/-- Halfway through castling there are no more kings than before. -/
theorem halfway (transit : Square) : (p.halfway m transit).FewKings := by
  cases here : p.piece? m.src with
  | none =>
    have still : p.halfway m transit = p := by
      rw [Position.halfway, Board.carry, show p.board.piece? m.src = none from here]
    rwa [still]
  | some piece =>
    refine few.of_carried m.src transit fun c t there => ?_
    rw [Position.piece?, Position.halfway, Board.piece?_carry here] at there
    grind [Position.piece?]

end FewKings

namespace Mirrors

variable (mirrors : p.Mirrors q)
include mirrors

theorem fewKings (few : p.FewKings) : q.FewKings := by
  intro c s t hs ht
  have image {u : Square} (king : q.piece? u = some ⟨c, .king⟩) :
      p.piece? u.mirror = some ⟨c.opponent, .king⟩ :=
    (mirrors.symm.piece?_eq_some_iff c u).2 king
  exact Square.mirror_inj.1 (few _ _ _ (image hs) (image ht))

/-! ## Attacks -/

theorem firstOccupied? (s : Square) (d : Direction) :
    q.firstOccupied? s.mirror d.mirror = (p.firstOccupied? s d).map Square.mirror := by
  have occupied : q.isOccupied ∘ Square.mirror = p.isOccupied := funext mirrors.isOccupied
  rw [Position.firstOccupied?, Square.ray_mirror, List.find?_map, occupied, Position.firstOccupied?]

/-- In the image, the other side attacks the image of the square. -/
theorem attacked (attacked : p.Attacked c s) : q.Attacked c.opponent s.mirror := by
  have piece {t : Square} {kind : PieceKind} (enemy : p.piece? t = some ⟨c.opponent, kind⟩) :
      q.piece? t.mirror = some ⟨c.opponent.opponent, kind⟩ :=
    (mirrors.piece?_eq_some_iff _ _).2 enemy
  have step {d : Direction} {t : Square} (step : s.step d = some t) :
      s.mirror.step d.mirror = some t.mirror := by rw [Square.step_mirror, step]; rfl
  have first {d : Direction} {t : Square} (first : p.firstOccupied? s d = some t) :
      q.firstOccupied? s.mirror d.mirror = some t.mirror := by
    rw [mirrors.firstOccupied?, first]; rfl
  have closed {d : Direction} {directions : List Direction} (hd : d ∈ directions)
      (closed : (directions.map Direction.mirror).Perm directions) : d.mirror ∈ directions :=
    closed.mem_iff.1 (List.mem_map_of_mem hd)
  cases attacked with
  | pawn hd ht enemy =>
    refine .pawn ?_ (step ht) (piece enemy)
    rw [← Direction.map_mirror_pawn]
    exact List.mem_map_of_mem hd
  | knight hd ht enemy =>
    exact .knight (closed hd Direction.perm_map_mirror_knight) (step ht) (piece enemy)
  | king hd ht enemy =>
    exact .king (closed hd Direction.perm_map_mirror_royal) (step ht) (piece enemy)
  | straight hd ht enemy =>
    exact .straight (closed hd Direction.perm_map_mirror_straight) (first ht)
      (enemy.imp piece piece)
  | diagonal hd ht enemy =>
    exact .diagonal (closed hd Direction.perm_map_mirror_diagonal) (first ht)
      (enemy.imp piece piece)

theorem kingAttacked (few : p.FewKings) (attacked : p.KingAttacked c) :
    q.KingAttacked c.opponent := by
  obtain ⟨k, king, attacked⟩ := few.kingAttacked_iff.1 attacked
  exact (mirrors.fewKings few).kingAttacked_iff.2
    ⟨k.mirror, (mirrors.piece?_eq_some_iff c k).2 king, mirrors.attacked attacked⟩

/-- Detection answers the same for both positions. -/
theorem inCheck (few : p.FewKings) (c : Color) : q.inCheck c.opponent = p.inCheck c := by
  have same : q.KingAttacked c.opponent ↔ p.KingAttacked c :=
    ⟨fun h => by simpa using mirrors.symm.kingAttacked (mirrors.fewKings few) h,
      mirrors.kingAttacked few⟩
  rw [inCheck_eq, inCheck_eq, decide_eq_decide.2 same]

/-! ## Moves -/

theorem victim? (m : Move) (piece : Piece) :
    q.victim? m.mirror piece.mirror = (p.victim? m piece).map Square.mirror := by
  simp only [Position.victim?, Piece.kind_mirror, Piece.color_mirror, Move.src_mirror,
    Move.dst_mirror, Square.file_mirror, mirrors.enPassant_eq_some_iff, Square.behind_mirror]
  split <;> rfl

theorem lifted (m : Move) (piece : Piece) :
    q.lifted m.mirror piece.mirror = (p.lifted m piece).mirror := by
  rw [Position.lifted, mirrors.victim?, mirrors.board, Position.lifted]
  cases p.victim? m piece with
  | none => exact (p.board.mirror_clear m.src).symm
  | some v =>
    dsimp only [Option.map_some]
    rw [Board.mirror_clear, Board.mirror_clear]
    rfl

/-- The image of a move leaves the image of the board. -/
theorem boardAfter (m : Move) (piece : Piece) :
    q.boardAfter m.mirror piece.mirror = (p.boardAfter m piece).mirror := by
  have wing : castlingWing? m.mirror piece.mirror = castlingWing? m piece := rfl
  rw [Position.boardAfter, wing, mirrors.lifted, Position.boardAfter, Board.mirror_place]
  cases castlingWing? m piece with
  | none => rfl
  | some w =>
    dsimp only
    rw [Board.mirror_carry]
    rfl

theorem rightsAfter (m : Move) (piece : Piece) :
    q.rightsAfter m.mirror piece.mirror = (p.rightsAfter m piece).mirror := by
  simp only [Position.rightsAfter, mirrors.rights, Piece.kind_mirror, Piece.color_mirror,
    Move.src_mirror, Move.dst_mirror]
  split <;> simp only [CastlingRights.mirror_remove, CastlingRights.mirror_revokedBy,
    CastlingRights.mirror_both]

end Mirrors

theorem enPassantAfter_mirror (m : Move) (piece : Piece) :
    enPassantAfter m.mirror piece.mirror = (enPassantAfter m piece).map Square.mirror := by
  simp only [enPassantAfter, m.rankDistance_mirror, Piece.kind_mirror, Piece.color_mirror,
    Move.src_mirror, Square.ahead_mirror]
  split <;> rfl

/-- Moves that mirror each other lead to positions that do so, whatever the counters are. -/
theorem Mirrors.of_played {piece : Piece} (mirrors : p.Mirrors q) (played : p.Played m piece p')
    (image : q.Played m.mirror piece.mirror q') : p'.Mirrors q' := by
  refine ⟨?_, ?_, ?_, ?_⟩
  · rw [image.board, mirrors.boardAfter, played.board]
  · rw [image.toMove, mirrors.toMove, played.toMove]
  · rw [image.rights, mirrors.rightsAfter, played.rights]
  · rw [image.enPassant, enPassantAfter_mirror, played.enPassant]

end Position

end ChessMachine
