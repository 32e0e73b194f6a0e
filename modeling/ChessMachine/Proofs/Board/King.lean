import ChessMachine.Proofs.Board.Squares

/-!
# Kings

The king of a colour is the first one from `a1` to `h8`. Where there is only one, it is that one.

## Main results

* `Position.king?_eq_some_iff`, `Position.king?_of_unique` — where the king is.
* `Position.king?_ne_none_iff` — whether there is one.
-/
namespace ChessMachine

namespace Position

variable {p : Position} {c : Color} {k : Square}

/-- The king of a colour is the first one in the order of the squares. -/
theorem king?_eq_some_iff : p.king? c = some k ↔
    p.piece? k = some ⟨c, .king⟩ ∧ ∀ s, s.index < k.index → p.piece? s ≠ some ⟨c, .king⟩ := by
  rw [king?, List.find?_eq_some_iff_append, decide_eq_true_iff]
  refine and_congr_right fun _ => ?_
  constructor
  · rintro ⟨before, after, squares, free⟩ s lt
    have sorted := Square.pairwise_all
    rw [squares, List.pairwise_append, List.pairwise_cons] at sorted
    have there := s.mem_all
    rw [squares, List.mem_append, List.mem_cons] at there
    rcases there with hb | rfl | ha
    · simpa using free s hb
    · omega
    · have := sorted.2.1.1 s ha
      omega
  · intro free
    obtain ⟨before, after, squares⟩ := List.append_of_mem k.mem_all
    have sorted := Square.pairwise_all
    rw [squares, List.pairwise_append] at sorted
    refine ⟨before, after, squares, fun s hs => ?_⟩
    simpa using free s (sorted.2.2 s hs k List.mem_cons_self)

/-- A king that is the only one of its colour is found. -/
theorem king?_of_unique (only : ∀ s, p.piece? s = some ⟨c, .king⟩ ↔ s = k) :
    p.king? c = some k := by
  refine king?_eq_some_iff.2 ⟨(only k).2 rfl, fun s lt hs => ?_⟩
  obtain rfl := (only s).1 hs
  omega

/-- A king is found exactly if one stands on the board. -/
theorem king?_ne_none_iff : p.king? c ≠ none ↔ ∃ s, p.piece? s = some ⟨c, .king⟩ := by
  rw [king?, Ne, List.find?_eq_none]
  simp [Square.mem_all]

end Position

end ChessMachine
