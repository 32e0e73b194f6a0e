import ChessMachine.Board.Position
import ChessMachine.Rules.Direction

/-!
# Pseudo-legal moves

The moves that the pieces of the side to move can make as such, whether or not their king is
attacked afterwards. They are listed by their source from `a1` to `h8`.

## Main definitions

* `Position.pawnMoves`, `Position.jumpTargets`, `Position.rayTargets`, `Position.castlingTargets`:
  where the pieces go.
* `Position.pseudoLegalMoves` — all moves.
-/
namespace ChessMachine

namespace Position

/-! ## Pawns -/

/-- The moves of a pawn from `src` to `dst`: on the last rank, one for each promotion. -/
def pawnArrivals (c : Color) (src dst : Square) : List Move :=
  if dst.rank = Rank.eighth c then PieceKind.promotions.map fun kind => ⟨src, dst, some kind⟩
  else [⟨src, dst, none⟩]

/-- One step forward, and a second one from the pawns' home rank. -/
def pushTargets (p : Position) (c : Color) (src : Square) : List Square :=
  match (src.ahead c 1).filter fun s => !p.isOccupied s with
  | none => []
  | some single =>
    if src.rank = Rank.second c then
      single :: ((src.ahead c 2).filter fun s => !p.isOccupied s).toList
    else [single]

theorem pushTargets_of_none {p : Position} {c : Color} {src : Square}
    (blocked : ((src.ahead c 1).filter fun s => !p.isOccupied s) = none) :
    p.pushTargets c src = [] := by
  delta pushTargets
  rw [blocked]

theorem pushTargets_of_some {p : Position} {c : Color} {src single : Square}
    (free : ((src.ahead c 1).filter fun s => !p.isOccupied s) = some single) :
    p.pushTargets c src = if src.rank = Rank.second c then
      single :: ((src.ahead c 2).filter fun s => !p.isOccupied s).toList else [single] := by
  delta pushTargets
  rw [free]

/-- Whether a pawn captures on `dst`, in passing or not. -/
def isPawnCapture (p : Position) (c : Color) (dst : Square) : Bool :=
  p.color? dst = some c.opponent || (p.enPassant = some dst && !p.isOccupied dst)

def captureTargets (p : Position) (c : Color) (src : Square) : List Square :=
  ((Direction.pawn c).filterMap src.step).filter (p.isPawnCapture c)

def pawnMoves (p : Position) (c : Color) (src : Square) : List Move :=
  (p.pushTargets c src ++ p.captureTargets c src).flatMap (pawnArrivals c src)

/-! ## Other pieces -/

/-- Single steps onto squares without a piece of the same colour. -/
def jumpTargets (p : Position) (c : Color) (src : Square) (directions : List Direction) :
    List Square :=
  (directions.filterMap src.step).filter fun dst => p.color? dst ≠ some c

/-- The squares of a ray up to the first occupied one, which counts if it holds an enemy. -/
def reach (p : Position) (c : Color) : List Square → List Square
  | [] => []
  | s :: rest =>
    match p.color? s with
    | none => s :: p.reach c rest
    | some d => if d = c then [] else [s]

def rayTargets (p : Position) (c : Color) (src : Square) (directions : List Direction) :
    List Square :=
  directions.flatMap fun d => p.reach c (src.ray d)

/-- Whether the right to castle is held and only king and rook stand on the way. -/
def canCastle (p : Position) (c : Color) (w : Wing) : Bool :=
  p.rights.holds c w
    && p.piece? ⟨w.rookFile, Rank.first c⟩ = some ⟨c, .rook⟩
    && w.between.all fun file => !p.isOccupied ⟨file, Rank.first c⟩

/-- Where a king arrives by castling. Attacks on its way are not looked at. -/
def castlingTargets (p : Position) (c : Color) (src : Square) : List Square :=
  if src = ⟨File.kingHome, Rank.first c⟩ then
    (Wing.all.filter (p.canCastle c)).map fun w => ⟨w.kingTarget, Rank.first c⟩
  else []

def pieceMoves (p : Position) (src : Square) (piece : Piece) : List Move :=
  let c := piece.color
  let go (targets : List Square) : List Move := targets.map fun dst => ⟨src, dst, none⟩
  match piece.kind with
  | .pawn => p.pawnMoves c src
  | .knight => go (p.jumpTargets c src Direction.knight)
  | .bishop => go (p.rayTargets c src Direction.diagonal)
  | .rook => go (p.rayTargets c src Direction.straight)
  | .queen => go (p.rayTargets c src Direction.royal)
  | .king => go (p.jumpTargets c src Direction.royal ++ p.castlingTargets c src)

def pseudoLegalMoves (p : Position) : List Move :=
  p.pieces.flatMap fun (src, piece) =>
    if piece.color = p.toMove then p.pieceMoves src piece else []

end Position

end ChessMachine
