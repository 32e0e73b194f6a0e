import ChessMachine.Machine.Instruction
import ChessMachine.Text.Quoted

/-!
# Faults

Everything that can go wrong while a program is assembled, built or executed, and while its
output is read back.

## Main definitions

* `Fault` — the causes.
* `Fault.message` — their wording.
-/
namespace ChessMachine

inductive Fault where
  /-- An instruction needed more values than the stack held. -/
  | stackUnderflow (ip : Nat) (opcode : Opcode)
  /-- A load or store named a cell outside of memory. -/
  | addressOutOfRange (ip : Nat) (address : Word) (size : Nat)
  /-- A jump led neither to an instruction nor to the end of the program. -/
  | invalidJump (ip : Nat) (target : Word) (length : Nat)
  /-- An instruction that needs an operand had none. -/
  | missingOperand (ip : Nat) (opcode : Opcode)
  | overflow (ip : Nat) (opcode : Opcode)
  /-- A value printed as a character was no code point. -/
  | invalidChar (ip : Nat) (value : Word)
  | unknownOpcode (line : Nat) (mnemonic : String)
  | invalidOperand (line : Nat) (operand : String)
  /-- A forward jump was never given a target. -/
  | unresolvedJump (index : Nat)
  /-- A position has more legal moves than a list of moves holds. -/
  | moveListFull (capacity : Nat)
  /-- The printed tokens were not of the expected form. -/
  | malformedOutput (output : List String)
  /-- An execution never stops. -/
  | unfinished
deriving DecidableEq

namespace Fault

def message : Fault → String
  | stackUnderflow ip opcode => s!"Stack underflow: {opcode} at instruction {ip}"
  | addressOutOfRange ip address size =>
    s!"Address {address} is out of range at instruction {ip} (memory has {size} cells)"
  | invalidJump ip target length =>
    s!"Jump target {target} at instruction {ip} is outside of the program ({length} instructions)"
  | missingOperand ip opcode => s!"{opcode} at instruction {ip} requires an operand"
  | overflow ip opcode => s!"Arithmetic overflow: {opcode} at instruction {ip}"
  | invalidChar ip value => s!"Cannot print {value} as a character at instruction {ip}"
  | unknownOpcode line mnemonic => s!"Unknown opcode {Text.quoted mnemonic} on line {line}"
  | invalidOperand line operand => s!"Invalid operand {Text.quoted operand} on line {line}"
  | unresolvedJump index => s!"Jump at instruction {index} was never patched"
  | moveListFull capacity => s!"Position has more than {capacity} legal moves"
  | malformedOutput output => s!"Unexpected program output: {Text.quotedList output}"
  | unfinished => "Execution never stops"

end Fault

end ChessMachine
