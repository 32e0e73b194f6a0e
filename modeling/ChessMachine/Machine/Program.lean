import ChessMachine.Machine.Instruction
import ChessMachine.Machine.Layout

/-!
# Programs

A program is a sequence of instructions. The memory it executes with covers every address that
a load or store names directly, within limits.

## Main definitions

* `Program` — the instructions.
* `Program.memorySize` — the number of memory cells it executes with.
-/
namespace ChessMachine

namespace Instruction

/-- The cell that a load or store names directly. -/
@[inline] def directCell? (inst : Instruction) : Option Nat :=
  match inst.opcode with
  | .load | .store => inst.operand.bind Word.toNat?
  | _ => none

end Instruction

structure Program where
  code : Array Instruction
deriving DecidableEq

namespace Program

/-- The greatest cell named directly, or `0`. -/
def highestCell (p : Program) : Nat :=
  p.code.foldl (fun highest inst => max highest (inst.directCell?.getD 0)) 0

/-- One more than the greatest cell named directly, brought into the limits. Cells beyond them
are faults when they are accessed. -/
def memorySize (p : Program) : Nat := max minMemory (min (p.highestCell + 1) maxMemory)

theorem minMemory_le_memorySize (p : Program) : minMemory ≤ p.memorySize := Nat.le_max_left ..

theorem memorySize_le_maxMemory (p : Program) : p.memorySize ≤ maxMemory :=
  Nat.max_le.2 ⟨by decide, Nat.min_le_right ..⟩

def size (p : Program) : Nat := p.code.size

end Program

end ChessMachine
