import ChessMachine.Proofs.Evaluation.Bound
import ChessMachine.Proofs.Rules.Distinct
import ChessMachine.Proofs.Rules.Overflow
import ChessMachine.Proofs.Rules.Soundness
import Mathlib.Data.List.Flatten

/-!
# Positions with few pieces

No piece has more moves than a queen that sees four whole lines. With seven pieces or fewer the list
of legal moves is never full, and legal moves add no piece.

## Main results

* `Square.length_rays_le` — how far a queen sees.
* `Position.length_pieceMoves_le`, `Position.length_pseudoLegalMoves_le` — how many moves there are.
* `Position.Sound.legalMoves_of_few` — few pieces have their legal moves.
-/
namespace ChessMachine

theorem length_flatMap_le {α β : Type} {f : α → List β} {n : Nat} {xs : List α}
    (each : ∀ x ∈ xs, (f x).length ≤ n) : (xs.flatMap f).length ≤ n * xs.length := by
  induction xs with
  | nil => exact Nat.zero_le _
  | cons x rest ih =>
    have first := each x List.mem_cons_self
    have later := ih fun y mem => each y (List.mem_cons_of_mem x mem)
    rw [List.flatMap_cons, List.length_append, List.length_cons, Nat.mul_succ]
    omega

namespace Square

variable {s : Square} {d : Direction}

theorem exists_along_length_ray (moves : d.Moves) : ∃ t, s.along d (s.ray d).length = some t := by
  cases count : (s.ray d).length with
  | zero => exact ⟨s, rfl⟩
  | succ n =>
    have last : n < (s.ray d).length := by omega
    exact ⟨_, (getElem?_ray moves n).symm.trans (List.getElem?_eq_getElem last)⟩

/-- Both rays of a line together have at most seven squares. -/
theorem length_ray_add_le (moves : d.Moves) :
    (s.ray d).length + (s.ray d.reverse).length ≤ 7 := by
  have back : d.reverse.Moves := by simpa [Direction.Moves, Direction.reverse] using moves
  obtain ⟨t, forwards⟩ := exists_along_length_ray (s := s) moves
  obtain ⟨u, backwards⟩ := exists_along_length_ray (s := s) back
  replace backwards := along_reverse backwards
  rw [Direction.reverse_reverse] at backwards
  -- the whole line, from its far end
  have line : u.along d ((s.ray d.reverse).length + (s.ray d).length) = some t := by
    rw [along_add, backwards, Option.bind_some, forwards]
  have := le_seven_of_along moves line
  omega

/-- A queen sees at most 28 squares. -/
theorem length_rays_le (s : Square) : (Direction.royal.flatMap s.ray).length ≤ 28 := by
  have files : (s.ray ⟨0, 1⟩).length + (s.ray ⟨0, -1⟩).length ≤ 7 :=
    length_ray_add_le (d := ⟨0, 1⟩) (by decide)
  have ranks : (s.ray ⟨1, 0⟩).length + (s.ray ⟨-1, 0⟩).length ≤ 7 :=
    length_ray_add_le (d := ⟨1, 0⟩) (by decide)
  have rising : (s.ray ⟨1, 1⟩).length + (s.ray ⟨-1, -1⟩).length ≤ 7 :=
    length_ray_add_le (d := ⟨1, 1⟩) (by decide)
  have falling : (s.ray ⟨1, -1⟩).length + (s.ray ⟨-1, 1⟩).length ≤ 7 :=
    length_ray_add_le (d := ⟨1, -1⟩) (by decide)
  simp only [Direction.royal, Direction.straight, Direction.diagonal, List.cons_append,
    List.nil_append, List.flatMap_cons, List.flatMap_nil, List.length_append, List.length_nil]
  omega

end Square

namespace Position

variable {p q : Position} {m : Move} {moves : List Move} {c : Color} {src : Square}
  {directions : List Direction}

/-! ## How many moves there are -/

theorem length_pawnArrivals_le (c : Color) (src dst : Square) :
    (pawnArrivals c src dst).length ≤ 4 := by
  rw [pawnArrivals]
  split
  · exact Nat.le_refl 4
  · exact Nat.le_add_left 1 3

theorem length_pushTargets_le (p : Position) (c : Color) (src : Square) :
    (p.pushTargets c src).length ≤ 2 := by
  have once (o : Option Square) : o.toList.length ≤ 1 := by cases o <;> simp
  cases free : (src.ahead c 1).filter fun s => !p.isOccupied s with
  | none =>
    rw [pushTargets_of_none free]
    exact Nat.zero_le 2
  | some single =>
    rw [pushTargets_of_some free]
    split
    · exact Nat.succ_le_succ (once _)
    · exact Nat.le_add_left 1 1

theorem length_captureTargets_le (p : Position) (c : Color) (src : Square) :
    (p.captureTargets c src).length ≤ 2 :=
  Nat.le_trans (List.length_filter_le ..) (List.length_filterMap_le ..)

theorem length_pawnMoves_le (p : Position) (c : Color) (src : Square) :
    (p.pawnMoves c src).length ≤ 16 := by
  have pushes := p.length_pushTargets_le c src
  have captures := p.length_captureTargets_le c src
  have arrivals : (p.pawnMoves c src).length ≤
      4 * (p.pushTargets c src ++ p.captureTargets c src).length :=
    length_flatMap_le fun dst _ => length_pawnArrivals_le c src dst
  rw [List.length_append] at arrivals
  omega

theorem length_jumpTargets_le (p : Position) (c : Color) (src : Square)
    (directions : List Direction) : (p.jumpTargets c src directions).length ≤ directions.length :=
  Nat.le_trans (List.length_filter_le ..) (List.length_filterMap_le ..)

theorem length_castlingTargets_le (p : Position) (c : Color) (src : Square) :
    (p.castlingTargets c src).length ≤ 2 := by
  rw [castlingTargets]
  split
  · rw [List.length_map]
    exact List.length_filter_le ..
  · decide

theorem length_rayTargets_le (sub : directions.Sublist Direction.royal) :
    (p.rayTargets c src directions).length ≤ 28 := by
  have reached : (p.rayTargets c src directions).Sublist (directions.flatMap src.ray) :=
    List.Sublist.flatMap_right directions fun d _ => reach_sublist
  exact Nat.le_trans (reached.trans (sub.flatMap src.ray)).length_le src.length_rays_le

/-- No piece has more moves than a queen could have along four full lines. -/
theorem length_pieceMoves_le (p : Position) (src : Square) (piece : Piece) :
    (p.pieceMoves src piece).length ≤ 28 := by
  have jumps (directions : List Direction) := p.length_jumpTargets_le piece.color src directions
  have castling := p.length_castlingTargets_le piece.color src
  have pawn := p.length_pawnMoves_le piece.color src
  rw [pieceMoves]
  cases piece.kind <;> dsimp only <;> try rw [List.length_map]
  case pawn => omega
  case knight => exact Nat.le_trans (jumps Direction.knight) (by decide)
  case bishop => exact length_rayTargets_le (List.sublist_append_right ..)
  case rook => exact length_rayTargets_le (List.sublist_append_left ..)
  case queen => exact length_rayTargets_le (List.Sublist.refl _)
  case king =>
    have eight : Direction.royal.length = 8 := rfl
    have := jumps Direction.royal
    rw [List.length_append]
    omega

/-- Few pieces have few moves. -/
theorem length_pseudoLegalMoves_le (p : Position) :
    p.pseudoLegalMoves.length ≤ 28 * p.occupiedCount := by
  rw [← length_pieces, pseudoLegalMoves]
  refine length_flatMap_le fun placed _ => ?_
  dsimp only
  split
  · exact p.length_pieceMoves_le _ _
  · exact Nat.zero_le _

/-! ## Legal moves of few pieces -/

/-- A legal move adds no piece. -/
theorem occupiedCount_le_of_play (legal : p.legalMoves = .ok moves) (mem : m ∈ moves)
    (played : p.play m = .ok q) : q.occupiedCount ≤ p.occupiedCount := by
  obtain ⟨kind, here, -⟩ := mem_pseudoLegalMoves.1 (of_mem_legalMoves legal mem).1
  show q.board.count ≤ p.board.count
  rw [(played_of_play here played).board]
  exact count_boardAfter_le here

/-- Seven pieces have their legal moves: so few never have too many for the list. -/
theorem Sound.legalMoves_of_few (sound : p.Sound) (few : p.occupiedCount ≤ 7)
    (room : p.HasRoom 1) : p.legalMoves = .ok p.allowedMoves := by
  have moves := p.length_pseudoLegalMoves_le
  obtain ⟨half, full⟩ := room
  exact legalMoves_of_le (sound.king _) half full
    (Nat.le_trans (List.length_filter_le ..) (by omega))

end Position

end ChessMachine
