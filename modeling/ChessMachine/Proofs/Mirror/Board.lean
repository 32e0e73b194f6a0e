import ChessMachine.Proofs.Board.Squares
import ChessMachine.Proofs.Rules.Geometry

/-!
# The board upside down

The mirror image of a position is turned top to bottom and has its colours swapped: what one
colour sees in a position, the other sees in its image.

## Main definitions

* `Square.mirror`, `Direction.mirror`, `Piece.mirror`, `Board.mirror`, `Position.mirror` — images.
* `Position.Mirrors` — one position is the image of the other, apart from the counters.

## Main results

* `Square.step_mirror`, `Square.ray_mirror` — steps lead from image to image.
* `Board.piece?_mirror` — what stands on the image of a board.
-/
namespace ChessMachine

/-! ## Squares -/

def Rank.mirror (r : Rank) : Rank := ⟨r.index.rev⟩

/-- The square on the same file, with the ranks counted from the other side. -/
def Square.mirror (s : Square) : Square := ⟨s.file, s.rank.mirror⟩

def Direction.mirror (d : Direction) : Direction := ⟨d.files, -d.ranks⟩

namespace Rank

@[simp] theorem mirror_mirror (r : Rank) : r.mirror.mirror = r := by simp [mirror]

theorem mirror_inj {r t : Rank} : r.mirror = t.mirror ↔ r = t :=
  ⟨fun h => by simpa using congrArg mirror h, congrArg mirror⟩

@[simp] theorem mirror_first (c : Color) : (first c).mirror = first c.opponent := by
  cases c <;> rfl

@[simp] theorem mirror_second (c : Color) : (second c).mirror = second c.opponent := by
  cases c <;> rfl

@[simp] theorem mirror_eighth (c : Color) : (eighth c).mirror = eighth c.opponent := by
  cases c <;> rfl

end Rank

theorem shift?_rev (i : Fin 8) (delta : Int) :
    shift? i.rev (-delta) = (shift? i delta).map Fin.rev := by
  refine Option.ext fun j => ?_
  rw [Option.map_eq_some_iff, shift?_eq_some_iff, Fin.val_rev]
  constructor
  · intro h
    refine ⟨j.rev, shift?_eq_some_iff.2 ?_, Fin.rev_rev j⟩
    rw [Fin.val_rev]
    omega
  · rintro ⟨k, hk, rfl⟩
    rw [shift?_eq_some_iff] at hk
    rw [Fin.val_rev]
    omega

theorem Color.opponent_inj {c d : Color} : c.opponent = d.opponent ↔ c = d :=
  ⟨fun h => by simpa using congrArg opponent h, congrArg opponent⟩

theorem Color.sign_opponent (c : Color) : c.opponent.sign = -c.sign := by cases c <;> rfl

namespace Square

variable {s t : Square}

@[simp] theorem mirror_mirror (s : Square) : s.mirror.mirror = s := by simp [mirror]

@[simp] theorem mirror_inj : s.mirror = t.mirror ↔ s = t :=
  ⟨fun h => by simpa using congrArg mirror h, congrArg mirror⟩

theorem mirror_eq_iff : s.mirror = t ↔ s = t.mirror := by rw [← mirror_inj, mirror_mirror]

@[simp] theorem file_mirror (s : Square) : s.mirror.file = s.file := rfl

@[simp] theorem rank_mirror (s : Square) : s.mirror.rank = s.rank.mirror := rfl

/-- On the first rank of the other colour stand the images of the squares on a colour's own. -/
theorem onRank_mirror (f : File) (c : Color) :
    (⟨f, Rank.first c.opponent⟩ : Square) = (⟨f, Rank.first c⟩ : Square).mirror := by
  rw [mirror, Rank.mirror_first]

/-- An offset with its ranks turned leads from image to image. -/
theorem offset_mirror (s : Square) (files ranks : Int) :
    s.mirror.offset files (-ranks) = (s.offset files ranks).map mirror := by
  have rank : s.mirror.rank.offset (-ranks) = (s.rank.offset ranks).map Rank.mirror := by
    rw [Rank.offset, rank_mirror, Rank.mirror, shift?_rev, Rank.offset, Option.map_map,
      Option.map_map]
    rfl
  rw [offset, offset, rank, file_mirror]
  cases s.file.offset files <;> cases s.rank.offset ranks <;> rfl

theorem step_mirror (s : Square) (d : Direction) :
    s.mirror.step d.mirror = (s.step d).map mirror := s.offset_mirror d.files d.ranks

/-- The squares one step away from the image are the images of those one step away. -/
theorem filterMap_step_mirror (s : Square) (directions : List Direction) :
    (directions.map Direction.mirror).filterMap s.mirror.step =
      (directions.filterMap s.step).map mirror := by
  rw [List.filterMap_map, List.map_filterMap]
  exact congrArg (List.filterMap · directions) (funext s.step_mirror)

theorem ahead_mirror (s : Square) (c : Color) (n : Nat) :
    s.mirror.ahead c.opponent n = (s.ahead c n).map mirror := by
  rw [ahead, c.sign_opponent, Int.mul_neg, offset_mirror, ahead]

theorem behind_mirror (s : Square) (c : Color) :
    s.mirror.behind c.opponent = (s.behind c).map mirror := by
  rw [behind_eq_ahead, ahead_mirror, behind_eq_ahead]

theorem steps_mirror (s : Square) (d : Direction) (n : Nat) :
    s.mirror.steps d.mirror n = (s.steps d n).map mirror := by
  induction n generalizing s with
  | zero => rfl
  | succ n ih =>
    rw [steps, step_mirror, steps]
    cases s.step d with
    | none => rfl
    | some t => exact congrArg (t.mirror :: ·) (ih t)

/-- The image of a ray is the ray from the image of its start. -/
theorem ray_mirror (s : Square) (d : Direction) : s.mirror.ray d.mirror = (s.ray d).map mirror :=
  s.steps_mirror d 7

end Square

/-! ## Directions -/

namespace Direction

@[simp] theorem mirror_mirror (d : Direction) : d.mirror.mirror = d := by simp [mirror]

/-- Pawns of the other colour capture the other way. -/
theorem map_mirror_pawn (c : Color) : (pawn c).map mirror = pawn c.opponent := by cases c <;> rfl

/-- A knight leaps in the same directions, upside down in another order. -/
theorem perm_map_mirror_knight : (knight.map mirror).Perm knight := by decide

theorem perm_map_mirror_straight : (straight.map mirror).Perm straight := by decide

theorem perm_map_mirror_diagonal : (diagonal.map mirror).Perm diagonal := by decide

theorem perm_map_mirror_royal : (royal.map mirror).Perm royal := by decide

end Direction

/-! ## Pieces, rights and moves -/

def Piece.mirror (p : Piece) : Piece := { p with color := p.color.opponent }

namespace Piece

@[simp] theorem color_mirror (p : Piece) : p.mirror.color = p.color.opponent := rfl

@[simp] theorem kind_mirror (p : Piece) : p.mirror.kind = p.kind := rfl

@[simp] theorem mirror_mirror (p : Piece) : p.mirror.mirror = p := by simp [mirror]

@[simp] theorem mirror_inj {p q : Piece} : p.mirror = q.mirror ↔ p = q :=
  ⟨fun h => by simpa using congrArg mirror h, congrArg mirror⟩

end Piece

/-- Each colour has the rights of the other. -/
def CastlingRights.mirror (r : CastlingRights) : CastlingRights :=
  ofFn fun c w => r.holds c.opponent w

namespace CastlingRights

variable (r : CastlingRights)

/-- In the image, a right is held by the other colour. -/
theorem holds_mirror (c : Color) (w : Wing) : r.mirror.holds c.opponent w = r.holds c w := by
  rw [mirror, holds_ofFn, Color.opponent_opponent]

@[simp] theorem mirror_mirror : r.mirror.mirror = r := by
  refine ext_holds fun c w => ?_
  rw [mirror, holds_ofFn, holds_mirror]

theorem mirror_remove (s : CastlingRights) : (r.remove s).mirror = r.mirror.remove s.mirror := by
  refine ext_holds fun c w => ?_
  simp only [mirror, remove, holds_ofFn]

theorem mirror_both (c : Color) : (both c).mirror = both c.opponent := by cases c <;> rfl

/-- The image of a square takes away the images of the rights. -/
theorem mirror_revokedBy (s : Square) : (revokedBy s).mirror = revokedBy s.mirror := by
  refine ext_holds fun c w => ?_
  have rank : s.rank = Rank.first c.opponent ↔ s.rank.mirror = Rank.first c := by
    rw [← Rank.mirror_inj, Rank.mirror_first, Color.opponent_opponent]
  rw [mirror, revokedBy, revokedBy, holds_ofFn, holds_ofFn, holds_ofFn]
  exact congrArg (· && _) (decide_eq_decide.2 rank)

end CastlingRights

def Move.mirror (m : Move) : Move := ⟨m.src.mirror, m.dst.mirror, m.promotion⟩

namespace Move

@[simp] theorem src_mirror (m : Move) : m.mirror.src = m.src.mirror := rfl

@[simp] theorem dst_mirror (m : Move) : m.mirror.dst = m.dst.mirror := rfl

@[simp] theorem mirror_mirror (m : Move) : m.mirror.mirror = m := by simp [mirror]

theorem rankDistance_mirror (m : Move) : m.mirror.rankDistance = m.rankDistance := by
  simp only [rankDistance, mirror, Square.rank_mirror, Rank.mirror, Fin.val_rev]
  omega

end Move

/-! ## Boards -/

namespace Board

/-- The board top to bottom with the colours swapped. -/
def mirror (b : Board) : Board :=
  ofCells (Square.all.map fun s => (b.piece? s.mirror).map Piece.mirror).toArray

variable (b : Board) (s t : Square)

/-- On the image stands, in the other colour, what stands on the board. -/
theorem piece?_mirror : b.mirror.piece? s = (b.piece? s.mirror).map Piece.mirror :=
  piece?_ofCells_map _ s

@[simp] theorem mirror_mirror : b.mirror.mirror = b := by
  refine ext_piece fun s => ?_
  rw [piece?_mirror, piece?_mirror, Square.mirror_mirror, Option.map_map]
  cases b.piece? s <;> simp

/-- An operation on the board has its image on the image. -/
theorem mirror_set (content : Option Piece) :
    (b.set s content).mirror = b.mirror.set s.mirror (content.map Piece.mirror) := by
  refine ext_piece fun t => ?_
  simp only [piece?_mirror, piece?_set, Square.mirror_eq_iff]
  split <;> rfl

theorem mirror_clear : (b.clear s).mirror = b.mirror.clear s.mirror := b.mirror_set s none

theorem mirror_place (p : Piece) : (b.place p s).mirror = b.mirror.place p.mirror s.mirror :=
  b.mirror_set s (some p)

theorem mirror_carry : (b.carry s t).mirror = b.mirror.carry s.mirror t.mirror := by
  rw [carry, carry, piece?_mirror, Square.mirror_mirror]
  cases b.piece? s with
  | none => rfl
  | some p => exact (mirror_place ..).trans (congrArg (place · _ _) (b.mirror_clear s))

end Board

/-! ## Positions -/

namespace Position

/-- The position top to bottom with the colours swapped. -/
def mirror (p : Position) : Position :=
  { p with
    board := p.board.mirror
    toMove := p.toMove.opponent
    rights := p.rights.mirror
    enPassant := p.enPassant.map Square.mirror }

/-- Where every square has its image and every piece its counterpart, these are the pieces, in
another order. -/
theorem perm_pieces_of_image {p q : Position} {image : Square → Square}
    (perm : (Square.all.map image).Perm Square.all)
    (piece : ∀ s, q.piece? (image s) = (p.piece? s).map Piece.mirror) :
    q.pieces.Perm (p.pieces.map fun placed => (image placed.1, placed.2.mirror)) := by
  have images : (Square.all.map image).filterMap
        (fun s => (q.piece? s).map fun piece => (s, piece)) =
      p.pieces.map fun placed => (image placed.1, placed.2.mirror) := by
    rw [List.filterMap_map, pieces, List.map_filterMap]
    congr 1
    funext s
    rw [Function.comp_apply, piece, Option.map_map, Option.map_map]
    rfl
  rw [pieces, ← images]
  exact perm.symm.filterMap _

/-- Apart from the counters, `q` is the mirror image of `p`. -/
structure Mirrors (p q : Position) : Prop where
  board : q.board = p.board.mirror
  toMove : q.toMove = p.toMove.opponent
  rights : q.rights = p.rights.mirror
  enPassant : q.enPassant = p.enPassant.map Square.mirror

theorem mirrors_mirror (p : Position) : p.Mirrors p.mirror := ⟨rfl, rfl, rfl, rfl⟩

namespace Mirrors

variable {p q : Position} (mirrors : p.Mirrors q) (c : Color) (s : Square)
include mirrors

/-- Each of two positions is the image of the other. -/
theorem symm : q.Mirrors p := by
  obtain ⟨board, toMove, rights, enPassant⟩ := mirrors
  refine ⟨?_, ?_, ?_, ?_⟩
  · rw [board, Board.mirror_mirror]
  · rw [toMove, Color.opponent_opponent]
  · rw [rights, CastlingRights.mirror_mirror]
  · rw [enPassant, Option.map_map]
    cases p.enPassant <;> simp

theorem piece? : q.piece? s.mirror = (p.piece? s).map Piece.mirror := by
  rw [Position.piece?, mirrors.board, Board.piece?_mirror, Square.mirror_mirror, Position.piece?]

theorem piece?_eq_some_iff {kind : PieceKind} :
    q.piece? s.mirror = some ⟨c.opponent, kind⟩ ↔ p.piece? s = some ⟨c, kind⟩ := by
  rw [mirrors.piece?]
  exact (Option.map_injective fun _ _ => Piece.mirror_inj.1).eq_iff (b := some ⟨c, kind⟩)

theorem isOccupied : q.isOccupied s.mirror = p.isOccupied s := by
  rw [Position.isOccupied, mirrors.piece?, Option.isSome_map, Position.isOccupied]

theorem color? : q.color? s.mirror = (p.color? s).map Color.opponent := by
  rw [Position.color?, mirrors.piece?, Option.map_map, Position.color?, Option.map_map]
  rfl

theorem color?_eq_some_iff : q.color? s.mirror = some c.opponent ↔ p.color? s = some c := by
  rw [mirrors.color?]
  exact (Option.map_injective fun _ _ => Color.opponent_inj.1).eq_iff (b := some c)

/-- Both positions list the same pieces, in another order. -/
theorem perm_pieces :
    q.pieces.Perm (p.pieces.map fun placed => (placed.1.mirror, placed.2.mirror)) :=
  perm_pieces_of_image (Square.perm_map_all Square.mirror_mirror) mirrors.piece?

end Mirrors

end Position

end ChessMachine
