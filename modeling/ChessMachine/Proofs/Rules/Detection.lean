import ChessMachine.Proofs.Rules.CheckProgram
import ChessMachine.Proofs.Rules.Movement

/-!
# Attacks are moves

Attacks are found by looking outward from the attacked square, moves by looking outward from the
piece that makes them. On a square that holds a piece, both find the same: a piece is attacked
exactly if the enemy, were it to move, could capture it.

## Main results

* `Position.Goes.attacked`, `Position.Attacked.exists_goes` — from moves to attacks and back.
* `Position.attacked_iff_exists_move` — a piece is attacked if a move ends on its square.
* `Position.inCheck_iff_exists_move` — a king is in check if it could be captured.
-/
namespace ChessMachine

namespace Position

variable {p : Position} {c : Color} {s src : Square} {d : Direction} {kind : PieceKind}

/-- Attacks do not depend on whose turn it is. -/
theorem attacked_turn (p : Position) (turn c : Color) (s : Square) :
    ({ p with toMove := turn } : Position).Attacked c s ↔ p.Attacked c s := by
  rw [← isAttacked_iff, ← isAttacked_iff]
  rfl

/-- The destination of a king that castles is empty. -/
theorem piece?_castled {w : Wing} (can : p.canCastle c w = true) :
    p.piece? (Square.castled c w) = none := by
  simp only [canCastle, Bool.and_eq_true, List.all_eq_true, Bool.not_eq_true',
    isOccupied_eq_false_iff] at can
  exact can.2 w.kingTarget (by cases w <;> decide)

/-- What sees a square comes first on the way back. -/
theorem Sees.firstOccupied?_eq {piece : Piece} (sees : p.Sees src d s) (hd : d ∈ Direction.royal)
    (here : p.piece? src = some piece) : p.firstOccupied? s d.reverse = some src := by
  have moves := Direction.moves_of_mem_royal _ (Direction.reverse_mem_royal d hd)
  exact (firstOccupied?_eq_some_iff moves).2 ⟨isOccupied_eq_true_iff.2 ⟨_, here⟩, sees.reverse⟩

/-- What comes first along a line goes back to where the line starts. -/
theorem goes_of_firstOccupied?_eq (hd : d ∈ Direction.royal) (slides : d.reverse ∈ kind.slides)
    (first : p.firstOccupied? s d = some src) (other : p.color? s ≠ some c) :
    p.Goes c src kind s := by
  have moves := Direction.moves_of_mem_royal d hd
  exact .slide slides ((firstOccupied?_eq_some_iff moves).1 first).2.reverse other

/-- A move that ends on a piece attacks it. -/
theorem Goes.attacked (goes : p.Goes c.opponent src kind s)
    (here : p.piece? src = some ⟨c.opponent, kind⟩) (target : p.color? s = some c) :
    p.Attacked c s := by
  have occupied : p.piece? s ≠ none := by
    intro empty
    simp [color?, empty] at target
  cases goes with
  | push _ free => exact absurd free occupied
  | doublePush _ _ _ _ empty => exact absurd empty occupied
  | enPassant _ _ _ free => exact absurd free occupied
  | castle _ can => exact absurd (piece?_castled can) occupied
  | capture hd step _ =>
    have back := Direction.reverse_mem_pawn _ _ hd
    rw [Color.opponent_opponent] at back
    exact .pawn back (Square.step_reverse.1 step) here
  | jump hd step _ =>
    have back := Square.step_reverse.1 step
    cases kind with
    | knight => exact .knight (Direction.reverse_mem_knight _ hd) back here
    | king => exact .king (Direction.reverse_mem_royal _ hd) back here
    | pawn | bishop | rook | queen => cases hd
  | slide hd sees _ =>
    have first := sees.firstOccupied?_eq (kind.mem_royal_of_mem_slides _ hd) here
    cases kind with
    | bishop => exact .diagonal (Direction.reverse_mem_diagonal _ hd) first (.inl here)
    | rook => exact .straight (Direction.reverse_mem_straight _ hd) first (.inl here)
    | queen =>
      rcases List.mem_append.1 hd with hd | hd
      · exact .straight (Direction.reverse_mem_straight _ hd) first (.inr here)
      · exact .diagonal (Direction.reverse_mem_diagonal _ hd) first (.inr here)
    | pawn | knight | king => cases hd

/-- What attacks a piece could go and take it. -/
theorem Attacked.exists_goes (attacked : p.Attacked c s) (target : p.color? s = some c) :
    ∃ src kind, p.piece? src = some ⟨c.opponent, kind⟩ ∧ p.Goes c.opponent src kind s := by
  have other : p.color? s ≠ some c.opponent := by
    rw [target, Ne, Option.some.injEq]
    exact c.ne_opponent
  have enemy : p.color? s = some c.opponent.opponent := by rw [target, Color.opponent_opponent]
  cases attacked with
  | @pawn d t hd step here =>
    exact ⟨t, _, here, .capture (Direction.reverse_mem_pawn _ _ hd) (Square.step_reverse.1 step)
      enemy⟩
  | @knight d t hd step here =>
    exact ⟨t, _, here, .jump (Direction.reverse_mem_knight _ hd) (Square.step_reverse.1 step)
      other⟩
  | @king d t hd step here =>
    exact ⟨t, _, here, .jump (Direction.reverse_mem_royal _ hd) (Square.step_reverse.1 step)
      other⟩
  | @straight d t hd first here =>
    have royal : d ∈ Direction.royal := List.mem_append_left _ hd
    have back := Direction.reverse_mem_straight _ hd
    rcases here with here | here
    · exact ⟨t, _, here, goes_of_firstOccupied?_eq royal back first other⟩
    · exact ⟨t, _, here, goes_of_firstOccupied?_eq royal (List.mem_append_left _ back) first other⟩
  | @diagonal d t hd first here =>
    have royal : d ∈ Direction.royal := List.mem_append_right _ hd
    have back := Direction.reverse_mem_diagonal _ hd
    rcases here with here | here
    · exact ⟨t, _, here, goes_of_firstOccupied?_eq royal back first other⟩
    · exact ⟨t, _, here, goes_of_firstOccupied?_eq royal (List.mem_append_right _ back) first other⟩

/-- A piece is attacked exactly if an enemy move ends on its square. -/
theorem attacked_iff_exists_move (target : p.color? s = some p.toMove.opponent) :
    p.Attacked p.toMove.opponent s ↔ ∃ m ∈ p.pseudoLegalMoves, m.dst = s := by
  constructor
  · intro attacked
    obtain ⟨src, kind, here, goes⟩ := attacked.exists_goes target
    rw [Color.opponent_opponent] at here goes
    obtain ⟨promotion, promotes⟩ := Move.exists_promotes p.toMove kind src s
    exact ⟨⟨src, s, promotion⟩, mem_pseudoLegalMoves.2 ⟨kind, here, goes, promotes⟩, rfl⟩
  · rintro ⟨m, hm, rfl⟩
    obtain ⟨kind, here, goes, -⟩ := mem_pseudoLegalMoves.1 hm
    rw [← p.toMove.opponent_opponent] at here goes
    exact goes.attacked here target

/-- A king is in check exactly if the other colour, if it were to move, had a move to the king's
square. -/
theorem inCheck_iff_exists_move (p : Position) (c : Color) :
    p.inCheck c = .ok true ↔ ∃ k, p.king? c = some k ∧
      ∃ m ∈ ({ p with toMove := c.opponent } : Position).pseudoLegalMoves, m.dst = k := by
  rw [inCheck_eq, Except.ok.injEq, decide_eq_true_iff, KingAttacked]
  refine exists_congr fun k => and_congr_right fun king => ?_
  have here : p.color? k = some c := congrArg (Option.map Piece.color) (king?_eq_some_iff.1 king).1
  have target : ({ p with toMove := c.opponent } : Position).color? k
      = some c.opponent.opponent := by
    rw [Color.opponent_opponent]
    exact here
  rw [← attacked_iff_exists_move target, Color.opponent_opponent]
  exact (attacked_turn p c.opponent c k).symm

end Position

end ChessMachine
