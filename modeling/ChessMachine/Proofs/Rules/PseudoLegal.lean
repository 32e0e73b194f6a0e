import ChessMachine.Proofs.Rules.Castling

/-!
# Pseudo-legal moves

Every pseudo-legal move starts at a piece of the side to move. A king that moves two files does so
by castling, since its steps cross one file at most.

## Main definitions

* `Move.castle` — the move of a king that castles.

## Main results

* `Position.exists_of_mem_pseudoLegalMoves` — which piece makes a pseudo-legal move.
* `Position.eq_castle_of_mem` — which of the moves castle.
-/
namespace ChessMachine

def Move.castle (c : Color) (w : Wing) : Move := ⟨Square.kingHome c, Square.castled c w, none⟩

namespace Position

variable {p : Position} {m : Move} {src : Square} {piece : Piece} {c : Color} {w : Wing}

theorem mem_pieces : (src, piece) ∈ p.pieces ↔ p.piece? src = some piece := by
  simp only [pieces, List.mem_filterMap, Option.map_eq_some_iff, Prod.mk.injEq]
  constructor
  · rintro ⟨s, -, x, hx, rfl, rfl⟩
    exact hx
  · exact fun h => ⟨src, src.mem_all, piece, h, rfl, rfl⟩

theorem src_of_mem_pieceMoves (h : m ∈ p.pieceMoves src piece) : m.src = src := by
  obtain ⟨color, kind⟩ := piece
  cases kind with
  | pawn =>
    obtain ⟨dst, -, arrival⟩ := List.mem_flatMap.1 h
    rw [pawnArrivals] at arrival
    split at arrival
    · obtain ⟨kind, -, rfl⟩ := List.mem_map.1 arrival
      rfl
    · obtain rfl := List.mem_singleton.1 arrival
      rfl
  | knight | bishop | rook | queen | king =>
    obtain ⟨dst, -, rfl⟩ := List.mem_map.1 h
    rfl

/-- A listed move is one of a piece of the side to move. -/
theorem exists_of_mem_pseudoLegalMoves (h : m ∈ p.pseudoLegalMoves) :
    ∃ kind, p.piece? m.src = some ⟨p.toMove, kind⟩ ∧ m ∈ p.pieceMoves m.src ⟨p.toMove, kind⟩ := by
  obtain ⟨⟨src, color, kind⟩, there, hm⟩ := List.mem_flatMap.1 h
  have here := mem_pieces.1 there
  by_cases turn : color = p.toMove
  · simp only [turn, if_true] at hm here
    obtain rfl := src_of_mem_pieceMoves hm
    exact ⟨kind, here, hm⟩
  · simp [turn] at hm

/-! ## Castling -/

theorem fileDistance_le_of_mem_jumpTargets {dst : Square}
    (h : dst ∈ p.jumpTargets c src Direction.royal) :
    (⟨src, dst, none⟩ : Move).fileDistance ≤ 1 := by
  obtain ⟨d, hd, step⟩ := List.mem_filterMap.1 (List.mem_filter.1 h).1
  obtain ⟨files, -⟩ := Square.step_eq_some_iff.1 step
  have near : ∀ d ∈ Direction.royal, -1 ≤ d.files ∧ d.files ≤ 1 := by decide
  have := near d hd
  simp only [Move.fileDistance]
  omega

theorem exists_of_mem_castlingTargets {dst : Square} (h : dst ∈ p.castlingTargets c src) :
    ∃ w, p.canCastle c w = true ∧ src = Square.kingHome c ∧ dst = Square.castled c w := by
  rw [castlingTargets] at h
  split at h
  · obtain ⟨w, hw, rfl⟩ := List.mem_map.1 h
    exact ⟨w, (List.mem_filter.1 hw).2, ‹_›, rfl⟩
  · cases h

/-- A king that moves two files castles. -/
theorem eq_castle_of_mem (h : m ∈ p.pseudoLegalMoves) (castling : p.isCastling m = true) :
    ∃ w, m = .castle p.toMove w ∧ p.piece? m.src = some ⟨p.toMove, .king⟩ ∧
      p.canCastle p.toMove w = true := by
  obtain ⟨kind, here, hm⟩ := exists_of_mem_pseudoLegalMoves h
  simp only [isCastling, here, Option.any_some, Piece.isKing, Bool.and_eq_true,
    decide_eq_true_eq] at castling
  obtain ⟨rfl, two⟩ := castling
  obtain ⟨dst, target, move⟩ := List.mem_map.1 hm
  rcases List.mem_append.1 target with jump | castles
  · have := fileDistance_le_of_mem_jumpTargets jump
    rw [move] at this
    omega
  · obtain ⟨w, can, home, rfl⟩ := exists_of_mem_castlingTargets castles
    exact ⟨w, by rw [← move, home]; rfl, here, can⟩

/-- For the only king of a colour, the test for castling is enough. -/
theorem readyToCastle (only : ∀ s, p.piece? s = some ⟨c, .king⟩ ↔ s = Square.kingHome c)
    (can : p.canCastle c w = true) : p.ReadyToCastle c w := by
  simp only [canCastle, Bool.and_eq_true, decide_eq_true_eq, List.all_eq_true] at can
  obtain ⟨⟨-, rook⟩, free⟩ := can
  refine ⟨only, rook, fun f hf => ?_⟩
  simpa [isOccupied] using free f hf

end Position

end ChessMachine
