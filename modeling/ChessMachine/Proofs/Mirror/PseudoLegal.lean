import ChessMachine.Proofs.Mirror.Board
import ChessMachine.Rules.PseudoLegal
import Mathlib.Data.List.Perm.Basic

/-!
# Moves upside down

The pseudo-legal moves of a mirror image are the images of the pseudo-legal moves, in another
order: squares are listed from White's side, and directions in an order that favours neither up
nor down.

## Main results

* `Position.Mirrors.perm_jumpTargets`, `Position.Mirrors.perm_rayTargets` — where pieces go.
* `Position.Mirrors.pawnMoves`, `Position.Mirrors.castlingTargets` — where pawns go, and kings that
  castle.
* `Position.Mirrors.perm_pseudoLegalMoves` — all moves.
-/
namespace ChessMachine

namespace Position

variable {p q : Position} {c : Color} {src single : Square}

/-! ## The order of directions -/

theorem perm_jumpTargets {directions others : List Direction} (same : directions.Perm others) :
    (p.jumpTargets c src directions).Perm (p.jumpTargets c src others) :=
  (same.filterMap _).filter _

theorem perm_rayTargets {directions others : List Direction} (same : directions.Perm others) :
    (p.rayTargets c src directions).Perm (p.rayTargets c src others) :=
  same.flatMap_right _

/-! ## Pawns -/

theorem pawnArrivals_mirror (c : Color) (src dst : Square) :
    pawnArrivals c.opponent src.mirror dst.mirror = (pawnArrivals c src dst).map Move.mirror := by
  rw [pawnArrivals, pawnArrivals, Square.rank_mirror, ← Rank.mirror_eighth]
  by_cases last : dst.rank = Rank.eighth c
  · rw [if_pos last, if_pos (congrArg Rank.mirror last), List.map_map]
    rfl
  · rw [if_neg last, if_neg (mt Rank.mirror_inj.1 last)]
    rfl

namespace Mirrors

variable (mirrors : p.Mirrors q)
include mirrors

/-- The next square ahead is as free for the image as for the pawn. -/
theorem filter_ahead (c : Color) (src : Square) (n : Nat) :
    (src.mirror.ahead c.opponent n).filter (fun s => !q.isOccupied s) =
      ((src.ahead c n).filter fun s => !p.isOccupied s).map Square.mirror := by
  rw [Square.ahead_mirror]
  cases src.ahead c n with
  | none => rfl
  | some s =>
    rw [Option.map_some, Option.filter_some, mirrors.isOccupied, Option.filter_some]
    split <;> rfl

theorem pushTargets (c : Color) (src : Square) :
    q.pushTargets c.opponent src.mirror = (p.pushTargets c src).map Square.mirror := by
  have first := mirrors.filter_ahead c src 1
  have home : src.mirror.rank = Rank.second c.opponent ↔ src.rank = Rank.second c := by
    rw [Square.rank_mirror, ← Rank.mirror_second, Rank.mirror_inj]
  cases free : (src.ahead c 1).filter fun s => !p.isOccupied s with
  | none =>
    rw [free] at first
    rw [pushTargets_of_none first, pushTargets_of_none free, List.map_nil]
  | some single =>
    rw [free] at first
    rw [pushTargets_of_some first, pushTargets_of_some free, mirrors.filter_ahead]
    simp only [home, Option.toList_map]
    split <;> rfl

theorem enPassant_eq_some_iff (s : Square) :
    q.enPassant = some s.mirror ↔ p.enPassant = some s := by
  rw [mirrors.enPassant]
  exact (Option.map_injective fun _ _ => Square.mirror_inj.1).eq_iff (b := some s)

theorem isPawnCapture (c : Color) (dst : Square) :
    q.isPawnCapture c.opponent dst.mirror = p.isPawnCapture c dst := by
  rw [Position.isPawnCapture, mirrors.isOccupied, Position.isPawnCapture,
    decide_eq_decide.2 (mirrors.color?_eq_some_iff c.opponent dst),
    decide_eq_decide.2 (mirrors.enPassant_eq_some_iff dst)]

theorem captureTargets (c : Color) (src : Square) :
    q.captureTargets c.opponent src.mirror = (p.captureTargets c src).map Square.mirror := by
  rw [Position.captureTargets, ← Direction.map_mirror_pawn, Square.filterMap_step_mirror,
    List.filter_map, Position.captureTargets]
  congr 2
  exact funext (mirrors.isPawnCapture c)

/-- Pawns have the images of their moves, in the same order. -/
theorem pawnMoves (c : Color) (src : Square) :
    q.pawnMoves c.opponent src.mirror = (p.pawnMoves c src).map Move.mirror := by
  rw [Position.pawnMoves, mirrors.pushTargets, mirrors.captureTargets, ← List.map_append,
    List.flatMap_map, Position.pawnMoves, List.map_flatMap]
  simp only [pawnArrivals_mirror]

/-! ## Other pieces -/

theorem jumpTargets (c : Color) (src : Square) (directions : List Direction) :
    q.jumpTargets c.opponent src.mirror (directions.map Direction.mirror) =
      (p.jumpTargets c src directions).map Square.mirror := by
  rw [Position.jumpTargets, Square.filterMap_step_mirror, List.filter_map, Position.jumpTargets]
  congr 2
  exact funext fun dst => decide_eq_decide.2 (not_congr (mirrors.color?_eq_some_iff c dst))

theorem perm_jumpTargets (c : Color) (src : Square) {directions : List Direction}
    (closed : (directions.map Direction.mirror).Perm directions) :
    (q.jumpTargets c.opponent src.mirror directions).Perm
      ((p.jumpTargets c src directions).map Square.mirror) :=
  mirrors.jumpTargets c src directions ▸ Position.perm_jumpTargets closed.symm

theorem reach (c : Color) (squares : List Square) :
    q.reach c.opponent (squares.map Square.mirror) = (p.reach c squares).map Square.mirror := by
  induction squares with
  | nil => rfl
  | cons s rest ih =>
    rw [List.map_cons, Position.reach, mirrors.color?, ih, Position.reach]
    cases p.color? s with
    | none => rfl
    | some d => cases c <;> cases d <;> rfl

/-- Lines lead to the images of the squares, in another order of directions. -/
theorem perm_rayTargets (c : Color) (src : Square) {directions : List Direction}
    (closed : (directions.map Direction.mirror).Perm directions) :
    (q.rayTargets c.opponent src.mirror directions).Perm
      ((p.rayTargets c src directions).map Square.mirror) := by
  refine (Position.perm_rayTargets closed.symm).trans (.of_eq ?_)
  rw [rayTargets, List.flatMap_map, rayTargets, List.map_flatMap]
  simp only [Square.ray_mirror, mirrors.reach]

theorem canCastle (c : Color) (w : Wing) : q.canCastle c.opponent w = p.canCastle c w := by
  rw [Position.canCastle, mirrors.rights, CastlingRights.holds_mirror, Position.canCastle]
  simp only [Square.onRank_mirror, mirrors.isOccupied, mirrors.piece?_eq_some_iff]

/-- Kings castle towards the same wings. -/
theorem castlingTargets (c : Color) (src : Square) :
    q.castlingTargets c.opponent src.mirror = (p.castlingTargets c src).map Square.mirror := by
  have home : src.mirror = ⟨File.kingHome, Rank.first c.opponent⟩ ↔
      src = ⟨File.kingHome, Rank.first c⟩ := by
    rw [Square.onRank_mirror, Square.mirror_inj]
  have can : q.canCastle c.opponent = p.canCastle c := funext (mirrors.canCastle c)
  rw [Position.castlingTargets, can, Position.castlingTargets]
  simp only [home]
  split
  · rw [List.map_map]
    simp only [Square.onRank_mirror, Function.comp_def]
  · rfl

/-! ## All moves -/

/-- A piece has the images of its moves, in some order. -/
theorem perm_pieceMoves (src : Square) (piece : Piece) :
    (q.pieceMoves src.mirror piece.mirror).Perm ((p.pieceMoves src piece).map Move.mirror) := by
  obtain ⟨c, kind⟩ := piece
  -- The images of moves go to the images of their targets.
  have go {targets images : List Square} (same : images.Perm (targets.map Square.mirror)) :
      (images.map fun dst => (⟨src.mirror, dst, none⟩ : Move)).Perm
        ((targets.map fun dst => (⟨src, dst, none⟩ : Move)).map Move.mirror) := by
    refine (same.map _).trans (.of_eq ?_)
    rw [List.map_map, List.map_map]
    rfl
  cases kind with
  | pawn => exact .of_eq (mirrors.pawnMoves c src)
  | knight => exact go (mirrors.perm_jumpTargets c src Direction.perm_map_mirror_knight)
  | bishop => exact go (mirrors.perm_rayTargets c src Direction.perm_map_mirror_diagonal)
  | rook => exact go (mirrors.perm_rayTargets c src Direction.perm_map_mirror_straight)
  | queen => exact go (mirrors.perm_rayTargets c src Direction.perm_map_mirror_royal)
  | king =>
    refine go (.trans ?_ (.of_eq (List.map_append ..).symm))
    exact (mirrors.perm_jumpTargets c src Direction.perm_map_mirror_royal).append
      (.of_eq (mirrors.castlingTargets c src))

/-- The moves of the mirror image are the images of the moves. -/
theorem perm_pseudoLegalMoves :
    q.pseudoLegalMoves.Perm (p.pseudoLegalMoves.map Move.mirror) := by
  refine (mirrors.perm_pieces.flatMap_right _).trans ?_
  rw [List.flatMap_map, Position.pseudoLegalMoves, List.map_flatMap]
  refine List.Perm.flatMap_left _ fun placed _ => ?_
  have turn : placed.2.mirror.color = q.toMove ↔ placed.2.color = p.toMove := by
    rw [mirrors.toMove]
    exact Color.opponent_inj
  simp only [turn]
  split
  · exact mirrors.perm_pieceMoves placed.1 placed.2
  · exact .nil

end Mirrors

end Position

end ChessMachine
