import ChessMachine.Evaluation.Evaluate
import ChessMachine.Evaluation.Table
import ChessMachine.Proofs.Arith.Sum
import ChessMachine.Proofs.Board.King
import ChessMachine.Proofs.Rules.Attack

/-!
# What adds up to an evaluation

The terms of an evaluation in the order in which they are added: the value of each piece for
White, the mobility of both sides, and the safety of the king of the side to move.

## Main definitions

* `Position.occupiedCount`, `Position.piecesBeside` — what the last two terms count.
* `Position.evalTerms` — the terms.

## Main results

* `Position.contribution?_eq_some_iff` — tables of contributions show the first ones.
-/
namespace ChessMachine

namespace Direction

theorem nodup_royal : royal.Nodup := by decide

end Direction

namespace Square

variable {s t : Square}

/-- One step in any direction leads to the squares that touch. -/
theorem mem_royal_steps : t ∈ Direction.royal.filterMap s.step ↔ s.Adjacent t := by
  rw [List.mem_filterMap]
  exact exists_royal_step_iff

/-- The steps of a king lead to the squares that touch its own, each of them once. -/
theorem royal_steps_perm (s : Square) :
    (Direction.royal.filterMap s.step).Perm (all.filter fun t => s.Adjacent t) := by
  have steps : (Direction.royal.filterMap s.step).Nodup := by
    refine List.Pairwise.filterMap s.step ?_ Direction.nodup_royal
    rintro ⟨files, ranks⟩ ⟨files', ranks'⟩ ne t ht _ ht' rfl
    simp only [step_eq_some_iff] at ht ht'
    exact ne (by rw [Direction.mk.injEq]; omega)
  refine (List.perm_ext_iff_of_nodup steps (nodup_all.sublist List.filter_sublist)).2 fun t => ?_
  rw [mem_royal_steps, List.mem_filter]
  simp [mem_all]

end Square

namespace Position

def occupiedCount (p : Position) : Nat := Square.all.countP p.isOccupied

/-- The number of pieces of colour `c` on the squares that touch a square. -/
def piecesBeside (p : Position) (c : Color) (s : Square) : Nat :=
  Square.all.countP fun t => s.Adjacent t ∧ p.color? t = some c

/-- What a piece on a square is worth for White. -/
def pieceTerm (w : Weights) (placed : Square × Piece) : Int :=
  placed.2.color.sign * (w.wordOf placed.2 placed.1).val

/-- What adds up to the evaluation of a position whose side to move has its king on a square. -/
def evalTerms (w : Weights) (p : Position) (king : Square) : List Int :=
  p.pieces.map (pieceTerm w) ++ [mobilityWeight * p.occupiedCount]
    ++ [-kingSafetyWeight * p.toMove.sign * p.piecesBeside p.toMove.opponent king]

variable {w : Weights} {p : Position} {s : Square} {n : Word}

/-- The pieces on the squares to which a king steps. -/
theorem countP_royal_steps (p : Position) (c : Color) (s : Square) :
    (Direction.royal.filterMap s.step).countP (fun t => p.color? t = some c)
      = p.piecesBeside c s := by
  rw [s.royal_steps_perm.countP_eq, List.countP_filter, piecesBeside]
  refine List.countP_congr fun t _ => ?_
  simp [and_comm]

theorem val_wrap_sign (c : Color) : (Word.wrap c.sign).val = c.sign := by
  cases c <;> rfl

/-- Tables of contributions show the values of the pieces for White. -/
theorem contribution?_eq_some_iff : p.contribution? w s = .ok (some n) ↔
    ∃ piece, p.piece? s = some piece ∧ n.val = pieceTerm w (s, piece) := by
  rw [contribution?]
  cases p.piece? s with
  | none => simp
  | some piece =>
    have product : (w.wordOf piece s).mul? (Word.wrap piece.color.sign) = some n ↔
        n.val = pieceTerm w (s, piece) := by
      rw [pieceTerm, Bounded.mul?, Bounded.ofInt?_eq_some_iff, val_wrap_sign, Int.mul_comm]
    simp only [Option.some.injEq, exists_eq_left', ← product]
    cases (w.wordOf piece s).mul? (Word.wrap piece.color.sign) <;> simp [Overflow.check, Except.map]

end Position

end ChessMachine
