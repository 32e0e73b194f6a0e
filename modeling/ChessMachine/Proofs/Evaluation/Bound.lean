import ChessMachine.Proofs.Board.Count
import ChessMachine.Proofs.Evaluation.Program

/-!
# Bounds on evaluations

With few pieces of moderate value, an evaluation cannot overflow, and it stays strictly between
the scores of the two checkmates.

## Main definitions

* `Weights.IsModerate` — no piece is worth more than ten pawns.

## Main results

* `Weights.isModerate_initial` — so it is before any training.
* `Position.magnitude_evalTerms_le` — the terms of an evaluation, all added up.
* `Position.exists_evaluate_of_isModerate` — the evaluation is no score of a checkmate.
-/
namespace ChessMachine

/-! ## Weights -/

theorem SquareTable.exists_get_ofRows (rows : List (List Int)) (s : Square) :
    ∃ x ∈ 0 :: rows.flatten, (ofRows rows).get s = Float.ofInt x := by
  have value : (ofRows rows).get s = Float.ofInt ((rows.reverse.flatten[s.index]?).getD 0) := by
    simp [ofRows, get]
  rw [value]
  cases h : rows.reverse.flatten[s.index]? with
  | none => exact ⟨0, List.mem_cons_self, rfl⟩
  | some x =>
    obtain ⟨row, hr, hx⟩ := List.mem_flatten.1 (List.mem_of_getElem? h)
    exact ⟨x, List.mem_cons_of_mem 0 (List.mem_flatten.2 ⟨row, List.mem_reverse.1 hr, hx⟩), rfl⟩

namespace Weights

/-- No piece is worth more than ten pawns on any square, to either side. -/
def IsModerate (w : Weights) : Prop := ∀ piece s, (w.wordOf piece s).val.natAbs ≤ 1000

theorem get_kinds (k : PieceKind) : kinds.get k.index = k := by cases k <;> rfl

theorem get_map_kinds {α : Type} (f : PieceKind → α) (k : PieceKind) :
    (kinds.map f).get k.index = f k := by
  have mapped : (kinds.map f).get k.index = f (kinds.get k.index) := Vector.getElem_map ..
  rw [mapped, get_kinds]

theorem valueOf_initial (p : Piece) (s : Square) : initial.valueOf p s =
    Float.ofInt p.kind.initialValue
      + (SquareTable.ofRows p.kind.initialRows).get (s.orientedFor p.color) := by
  rw [valueOf, materialOf, tableOf, initial, get_map_kinds, get_map_kinds]

/-- Before any training, no piece is worth more than ten pawns. -/
theorem isModerate_initial : initial.IsModerate := by
  intro piece s
  have values : ∀ k ∈ PieceKind.all, ∀ x ∈ 0 :: k.initialRows.flatten,
      (Binary64.ofFloat (Float.ofInt k.initialValue + Float.ofInt x)).toWord.val.natAbs ≤ 1000 := by
    decide +kernel
  obtain ⟨x, hx, entry⟩ :=
    SquareTable.exists_get_ofRows piece.kind.initialRows (s.orientedFor piece.color)
  rw [wordOf, valueOf_initial, entry]
  exact values _ (by cases piece.kind <;> decide) x hx

end Weights

namespace Position

variable {w : Weights} {p : Position} {king : Square}

theorem length_pieces (p : Position) : p.pieces.length = p.occupiedCount := by
  rw [pieces, List.length_filterMap_eq_countP, occupiedCount]
  refine List.countP_congr fun s _ => ?_
  rw [Option.isSome_map]
  rfl

/-- The colour of a piece turns only the sign of what it is worth. -/
theorem natAbs_pieceTerm (w : Weights) (placed : Square × Piece) :
    (pieceTerm w placed).natAbs = (w.wordOf placed.2 placed.1).val.natAbs := by
  rw [pieceTerm, Int.natAbs_mul]
  cases placed.2.color <;> exact Nat.one_mul _

/-- No square touches more than eight others. -/
theorem piecesBeside_le (p : Position) (c : Color) (s : Square) : p.piecesBeside c s ≤ 8 := by
  rw [← countP_royal_steps]
  exact Nat.le_trans List.countP_le_length (List.length_filterMap_le ..)

/-- The terms of an evaluation, all added up. -/
theorem magnitude_evalTerms_le (moderate : w.IsModerate) :
    Word.magnitude (evalTerms w p king) ≤ 1002 * p.occupiedCount + 160 := by
  have material : Word.magnitude (p.pieces.map (pieceTerm w)) ≤ p.occupiedCount * 1000 := by
    rw [← length_pieces, ← List.length_map (pieceTerm w)]
    refine Word.magnitude_le_of_forall fun t ht => ?_
    obtain ⟨placed, -, rfl⟩ := List.mem_map.1 ht
    rw [natAbs_pieceTerm]
    exact moderate _ _
  have beside := p.piecesBeside_le p.toMove.opponent king
  rw [evalTerms, Word.magnitude_append, Word.magnitude_append]
  have mobility : Word.magnitude [mobilityWeight * p.occupiedCount] = 2 * p.occupiedCount := by
    rw [Word.magnitude_singleton, Int.natAbs_mul]
    rfl
  have safety : Word.magnitude [-kingSafetyWeight * p.toMove.sign
      * p.piecesBeside p.toMove.opponent king]
      = 20 * p.piecesBeside p.toMove.opponent king := by
    rw [Word.magnitude_singleton, Int.natAbs_mul]
    cases p.toMove <;> rfl
  omega

/-- The evaluation of a few pieces of moderate value does not overflow. -/
theorem sumsFit_of_isModerate (king : Square) (moderate : w.IsModerate)
    (few : p.occupiedCount ≤ 32) : Word.SumsFit (evalTerms w p king) := by
  have small : Word.magnitude (evalTerms w p king) ≤ 1002 * p.occupiedCount + 160 :=
    magnitude_evalTerms_le moderate
  exact Word.sumsFit_of_magnitude_le (by omega)

/-- The evaluation of a few pieces of moderate value is no score of a checkmate. -/
theorem exists_evaluate_of_isModerate (moderate : w.IsModerate) (few : p.occupiedCount ≤ 32)
    (h : p.king? p.toMove = some king) :
    ∃ s, p.evaluate w = .ok s ∧ ∀ c, s ≠ Score.mated c := by
  have small : Word.magnitude (evalTerms w p king) ≤ 1002 * p.occupiedCount + 160 :=
    magnitude_evalTerms_le moderate
  obtain ⟨n, sum, value⟩ := (sumsFit_of_isModerate king moderate few).exists_eq_some
  refine ⟨_, evaluate_eq_ok h sum, fun c same => ?_⟩
  have bounded := Word.natAbs_total_le (evalTerms w p king)
  have ends : (Score.mated c).val = -Score.bound ∨ (Score.mated c).val = Score.bound := by
    cases c
    · exact .inl rfl
    · exact .inr rfl
  rw [← same, Score.val_clamped, value] at ends
  have bound : Score.bound = 0x7fff := rfl
  omega

end Position

end ChessMachine
