import ChessMachine.Proofs.Evaluation.Bound
import ChessMachine.Proofs.Mirror.Board

/-!
# Evaluating from the other side of the board

After half a turn of the board, with the colours swapped, each side is where the other one was.
Values of pieces and of the safety of the king change sides, but mobility counts for White whoever
is to move.

## Main definitions

* `Board.rotated`, `Position.Rotates` — the board and the position after half a turn.

## Main results

* `Position.Rotates.total_evalTerms` — the sums of the terms of both evaluations.
* `Position.printed_add_printed_of_rotates` — what both programs print.
-/
namespace ChessMachine

/-! ## Squares and boards -/

namespace Square

variable {s t : Square}

theorem rotated_inj : s.rotated = t.rotated ↔ s = t :=
  ⟨fun h => by simpa using congrArg rotated h, congrArg rotated⟩

theorem rotated_eq_iff : s.rotated = t ↔ s = t.rotated := by rw [← rotated_inj, rotated_rotated]

/-- Half a turn keeps squares beside each other. -/
theorem adjacent_rotated : s.rotated.Adjacent t.rotated ↔ s.Adjacent t := by
  rw [Adjacent, Adjacent, ne_eq, rotated_inj]
  refine and_congr_right fun _ => ?_
  simp only [rotated, Fin.val_rev]
  omega

/-- After half a turn, the other colour sees the same square. -/
theorem orientedFor_rotated (s : Square) (c : Color) :
    s.rotated.orientedFor c.opponent = s.orientedFor c := by
  cases c with
  | white => exact s.rotated_rotated
  | black => rfl

end Square

/-- The board after half a turn, with the colours swapped. -/
def Board.rotated (b : Board) : Board :=
  ofCells (Square.all.map fun s => (b.piece? s.rotated).map Piece.mirror).toArray

namespace Position

/-- The board of `q` is that of `p` after half a turn, and the other colour is to move. -/
structure Rotates (p q : Position) : Prop where
  board : q.board = p.board.rotated
  toMove : q.toMove = p.toMove.opponent

namespace Rotates

variable {p q : Position} {w : Weights} {k : Square} (rotates : p.Rotates q)
include rotates

theorem piece? (s : Square) : q.piece? s.rotated = (p.piece? s).map Piece.mirror := by
  rw [Position.piece?, rotates.board, Board.rotated, Board.piece?_ofCells_map,
    Square.rotated_rotated, Position.piece?]

/-- The only king of the side to move is found where half a turn takes it. -/
theorem king? (only : ∀ s, p.piece? s = some ⟨p.toMove, .king⟩ ↔ s = k) :
    q.king? q.toMove = some k.rotated := by
  refine king?_of_unique fun s => ?_
  have here := rotates.piece? s.rotated
  rw [Square.rotated_rotated] at here
  rw [here, rotates.toMove, ← Square.rotated_eq_iff, ← only s.rotated]
  exact (Option.map_injective fun _ _ => Piece.mirror_inj.1).eq_iff
    (b := some ⟨p.toMove, .king⟩)

/-! ## Terms -/

omit rotates in
/-- A square is to one colour what its counterpart is to the other. -/
theorem pieceTerm_rotated (w : Weights) (placed : Square × Piece) :
    pieceTerm w (placed.1.rotated, placed.2.mirror) = -pieceTerm w placed := by
  have value : w.wordOf placed.2.mirror placed.1.rotated = w.wordOf placed.2 placed.1 := by
    rw [Weights.wordOf, Weights.valueOf, Piece.kind_mirror, Piece.color_mirror,
      Square.orientedFor_rotated, Weights.wordOf, Weights.valueOf]
  rw [pieceTerm, value, Piece.color_mirror, Color.sign_opponent, Int.neg_mul, pieceTerm]

/-- After half a turn, the pieces are worth as much to the other side. -/
theorem total_pieces (w : Weights) :
    Word.total (q.pieces.map (pieceTerm w)) = -Word.total (p.pieces.map (pieceTerm w)) := by
  have pieces := perm_pieces_of_image (Square.perm_map_all Square.rotated_rotated) rotates.piece?
  rw [Word.total_perm (pieces.map _), List.map_map, ← Word.total_map_neg, List.map_map]
  exact congrArg Word.total (List.map_congr_left fun placed _ => pieceTerm_rotated w placed)

theorem occupiedCount : q.occupiedCount = p.occupiedCount := by
  rw [Position.occupiedCount, ← (Square.perm_map_all Square.rotated_rotated).countP_eq,
    List.countP_map, Position.occupiedCount]
  refine List.countP_congr fun s _ => ?_
  rw [Function.comp_apply, isOccupied, rotates.piece?, Option.isSome_map, isOccupied]

theorem piecesBeside (c : Color) (s : Square) :
    q.piecesBeside c.opponent s.rotated = p.piecesBeside c s := by
  have color (t : Square) : q.color? t.rotated = some c.opponent ↔ p.color? t = some c := by
    have swapped : q.color? t.rotated = (p.color? t).map Color.opponent := by
      rw [color?, rotates.piece?, Option.map_map, color?, Option.map_map]
      rfl
    rw [swapped]
    exact (Option.map_injective fun _ _ => Color.opponent_inj.1).eq_iff (b := some c)
  rw [Position.piecesBeside, ← (Square.perm_map_all Square.rotated_rotated).countP_eq,
    List.countP_map, Position.piecesBeside]
  refine List.countP_congr fun t _ => ?_
  simp [Square.adjacent_rotated, color]

/-- Only mobility does not change sides. -/
theorem total_evalTerms (w : Weights) (k : Square) :
    Word.total (evalTerms w p k) + Word.total (evalTerms w q k.rotated)
      = 2 * mobilityWeight * p.occupiedCount := by
  have beside := rotates.piecesBeside p.toMove.opponent k
  rw [← rotates.toMove] at beside
  have safety : -kingSafetyWeight * q.toMove.sign * q.piecesBeside q.toMove.opponent k.rotated
      = -(-kingSafetyWeight * p.toMove.sign * p.piecesBeside p.toMove.opponent k) := by
    rw [beside, rotates.toMove, Color.sign_opponent, Int.mul_neg, Int.neg_mul]
  simp only [evalTerms, Word.total_append, Word.total_cons, Word.total_nil, rotates.total_pieces,
    rotates.occupiedCount, safety, Int.mul_assoc 2]
  omega

end Rotates

/-! ## Programs -/

variable {p q : Position} {w : Weights}

/-- A program that does not overflow prints the sum of the terms. -/
theorem exists_printed (w : Weights) {king : Square} (h : p.king? p.toMove = some king)
    (never : ∀ ip opcode, (p.evalCode w).execute ≠ .error (.overflow ip opcode)) :
    ∃ n : Word, (p.evalCode w).execute = .ok [toString n] ∧
      n.val = Word.total (evalTerms w p king) := by
  cases sum : (0 : Word).addTerms? (evalTerms w p king) with
  | none =>
    obtain ⟨ip, opcode, failed⟩ := execute_eq_error h sum
    exact absurd failed (never ip opcode)
  | some n => exact ⟨n, execute_eq_ok h sum, (Word.addTerms?_zero_eq_some_iff.1 sum).2⟩

/-- With few pieces of moderate value, the program does not overflow. -/
theorem execute_ne_overflow (moderate : w.IsModerate) (few : p.occupiedCount ≤ 32) {king : Square}
    (h : p.king? p.toMove = some king) (ip : Nat) (opcode : Opcode) :
    (p.evalCode w).execute ≠ .error (.overflow ip opcode) := by
  obtain ⟨n, sum, -⟩ := (sumsFit_of_isModerate king moderate few).exists_eq_some
  rw [execute_eq_ok h sum]
  exact nofun

/-- If the side to move has one king, and neither program overflows, the evaluations of a position
and of the one after half a turn with swapped colours print integers that add up to the mobility of
both. -/
theorem printed_add_printed_of_rotates (w : Weights) (p q : Position) (rotates : p.Rotates q)
    (king : ∃ k, ∀ s, p.piece? s = some ⟨p.toMove, .king⟩ ↔ s = k)
    (never : ∀ ip opcode, (p.evalCode w).execute ≠ .error (.overflow ip opcode))
    (neverRotated : ∀ ip opcode, (q.evalCode w).execute ≠ .error (.overflow ip opcode)) :
    ∃ n m : Word, (p.evalCode w).execute = .ok [toString n] ∧
      (q.evalCode w).execute = .ok [toString m] ∧
      n.val + m.val = 2 * mobilityWeight * p.occupiedCount := by
  obtain ⟨k, only⟩ := king
  obtain ⟨n, printed, sum⟩ := exists_printed w (king?_of_unique only) never
  obtain ⟨m, printedRotated, sumRotated⟩ := exists_printed w (rotates.king? only) neverRotated
  refine ⟨n, m, printed, printedRotated, ?_⟩
  rw [sum, sumRotated, rotates.total_evalTerms w k]

/-- The white king in its corner has a black queen beside it and a black knight nearby. -/
def besieged : Position where
  board := (((Board.empty.place ⟨.white, .king⟩ ⟨.h, Rank.first .white⟩).place ⟨.black, .queen⟩
    ⟨.g, Rank.second .white⟩).place ⟨.black, .knight⟩ ⟨.f, Rank.third .white⟩).place
    ⟨.white, .pawn⟩ ⟨.a, Rank.second .white⟩
  toMove := .white
  rights := {}
  enPassant := none
  halfmove := 0
  fullmove := 1

theorem printed_add_printed_besieged : ∃ n m : Word,
    (besieged.evalCode .initial).execute = .ok [toString n] ∧
      (evalCode .initial { besieged with
        board := besieged.board.rotated, toMove := .black }).execute = .ok [toString m] ∧
      n.val + m.val = 16 := by
  have rotates : besieged.Rotates { besieged with
      board := besieged.board.rotated, toMove := .black } := ⟨rfl, rfl⟩
  have king : ∀ s ∈ Square.all, besieged.piece? s = some ⟨.white, .king⟩ ↔
      s = ⟨.h, Rank.first .white⟩ := by decide +kernel
  have only (s : Square) := king s s.mem_all
  have four : besieged.occupiedCount = 4 := by decide +kernel
  have sum := printed_add_printed_of_rotates .initial besieged _ rotates ⟨_, only⟩
    (execute_ne_overflow Weights.isModerate_initial (by omega) (king?_of_unique only))
    (execute_ne_overflow Weights.isModerate_initial (by rw [rotates.occupiedCount]; omega)
      (rotates.king? only))
  rwa [four] at sum

end Position

end ChessMachine
