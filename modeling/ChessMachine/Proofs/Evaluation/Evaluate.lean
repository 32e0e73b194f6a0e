import ChessMachine.Evaluation.Evaluate
import ChessMachine.Proofs.Machine.Compilation

/-!
# The evaluation program

## Main results

* `Position.evaluate_of_no_king` — a side to move without a king counts as mated.
-/
namespace ChessMachine

namespace Score

theorem word?_mated (c : Color) :
    Text.word? (toString (Word.wrap (mated c).val)) = some (.wrap (mated c).val) := by
  cases c <;> decide +kernel

/-- Neither words nor scores are too small a range for the score of a checkmate. -/
theorem clamped_mated (c : Color) : clamped (Word.wrap (mated c).val).val = mated c := by
  cases c <;> decide

end Score

namespace Position

/-- A side to move without a king counts as mated. -/
theorem evaluate_of_no_king (w : Weights) {p : Position} (king : p.king? p.toMove = none) :
    p.evaluate w = .ok (Score.mated p.toMove) := by
  have code : p.evalCode w = Code.block [.push (.wrap (Score.mated p.toMove).val), .print] := by
    rw [evalCode, king]
  have small : (p.evalCode w).size < 0x8000000000000000 := by
    rw [code]
    exact (by decide : 2 < 0x8000000000000000)
  have compiled : p.evalProgram w = .ok _ := Code.compile_eq _
  have executed :
      Program.execute _ = .ok [toString (Word.wrap (Score.mated p.toMove).val)] :=
    Code.execute_eq_ok small compiled (by rw [code]; rfl) rfl
  simp only [evaluate, compiled, executed, bind, Except.bind, Score.word?_mated,
    Score.clamped_mated]
  rfl

end Position

end ChessMachine
