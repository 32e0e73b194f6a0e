import ChessMachine.Proofs.Search.BestMove

/-!
# Scores of checkmate

A search to some depth gives the score of a checkmate exactly if that mate can be forced within
as many plies, as long as the pieces are few and of moderate value.

## Main results

* `Position.exists_search_score` — a search finds the minimax score.
* `Position.search_eq_mated_iff` — scores of checkmates come from forced mates only.
-/
namespace ChessMachine

namespace Position

variable {w : Weights} {p : Position} {depth : Nat} {s : Score} {moves : List Move}

/-- A search finds the minimax score. -/
theorem exists_search_score (king : p.king? p.toMove ≠ none) (legal : p.legalMoves = .ok moves)
    (h : p.minimax w (max depth 1) = .ok s) : ∃ r, p.search w depth = .ok r ∧ r.score = s := by
  obtain ⟨r, found, low, high, exact⟩ := foretells_alphaBeta h _ _ window_full
  obtain ⟨lo, hi⟩ := minimax_inRange h
  rw [Score.le_iff] at lo hi
  have equal : r.score = s := Score.ext_val (by omega)
  exact ⟨_, (search_eq_ok_iff king legal).2 ⟨r, found, rfl⟩, equal⟩

/-- In a sound position with at most 32 pieces of moderate value, of which every position within
the depth has its legal moves, a search gives the score of a checkmate exactly if that mate can be
forced within the depth. The pieces are of moderate value before any training. -/
theorem search_eq_mated_iff : Weights.initial.IsModerate ∧
    ∀ (w : Weights) (p : Position) (depth : Nat), w.IsModerate → p.Sound →
      p.occupiedCount ≤ 32 → 1 ≤ depth → p.Explorable depth →
      ∃ r, p.search w depth = .ok r ∧ (r.score = Score.inf ↔ p.Forces .white depth) ∧
        (r.score = Score.negInf ↔ p.Forces .black depth) := by
  refine ⟨Weights.isModerate_initial, fun w p depth moderate sound few deep explorable => ?_⟩
  obtain ⟨s, score, tells⟩ := tellsMates moderate sound few explorable
  obtain ⟨moves, legal⟩ := explorable.exists_legalMoves
  have depth_eq : max depth 1 = depth := Nat.max_eq_left deep
  obtain ⟨r, found, rfl⟩ :=
    exists_search_score (sound.king?_ne_none _) legal (depth_eq.symm ▸ score)
  exact ⟨r, found, tells .white, tells .black⟩

theorem search_backRank : ∃ r, backRank.search Weights.initial 1 = .ok r ∧ r.score = Score.inf := by
  obtain ⟨moderate, scores⟩ := search_eq_mated_iff
  obtain ⟨r, found, won, -⟩ := scores Weights.initial backRank 1 moderate sound_backRank
    (Nat.le_trans few_backRank (by decide)) (by decide)
    (sound_backRank.explorable few_backRank (by decide))
  exact ⟨r, found, won.2 (forces_backRank 0)⟩

end Position

end ChessMachine
