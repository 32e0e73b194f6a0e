import ChessMachine.Machine.Fault
import ChessMachine.Machine.Program
import ChessMachine.Text.Blank
import ChessMachine.Text.Lines
import ChessMachine.Text.Numeral

/-!
# Assembly

A program is written as one numbered instruction per line, and read back from such lines. A
reader also accepts blank lines, comments after a semicolon, lines without a number and
mnemonics in any letter case.

## Main definitions

* `Program.listing` — the text of a program.
* `Instruction.ofLine` — the instruction on a line, if the line is not blank.
* `Program.assemble` — the program that a text describes.
-/
namespace ChessMachine

namespace Instruction

/-- Drops a first token that ends in a colon, as the number of a listed instruction does. -/
def dropNumber : List String → List String
  | [] => []
  | token :: rest => if token.toList.getLast? = some ':' then rest else token :: rest

def ofOperands (number : Nat) (opcode : Opcode) : List String → Except Fault Instruction
  | [] => .ok { opcode }
  | operand :: rest =>
    match Text.word? operand with
    | none => .error (.invalidOperand number operand)
    | some w =>
      match rest with
      | [] => .ok { opcode, operand := some w }
      | extra :: _ => .error (.invalidOperand number extra)

/-- The tokens of a line, without its comment and its number. -/
def tokens (line : List Char) : List String :=
  dropNumber (Text.asciiWords (String.ofList (line.takeWhile (· != ';'))))

def ofLine (number : Nat) (line : List Char) : Except Fault (Option Instruction) :=
  match tokens line with
  | [] => .ok none
  | mnemonic :: operands =>
    match Opcode.ofMnemonic? mnemonic with
    | none => .error (.unknownOpcode number mnemonic)
    | some opcode => (ofOperands number opcode operands).map some

/-- Reads consecutive lines, the first of which has the given number. -/
def ofLines (number : Nat) : List (List Char) → Except Fault (List Instruction)
  | [] => .ok []
  | line :: rest => do
    let inst ← ofLine number line
    let insts ← ofLines (number + 1) rest
    return inst.toList ++ insts

end Instruction

namespace Program

def assemble (source : String) : Except Fault Program := do
  let insts ← Instruction.ofLines 1 (Text.lines '\n' '\r' source.toList)
  return ⟨insts.toArray⟩

def listingLine (index : Nat) (inst : Instruction) : String :=
  s!"{Text.padded 4 index}: {inst.text}\n"

def listing (p : Program) : String := String.join (p.code.toList.mapIdx listingLine)

end Program

end ChessMachine
