import ChessMachine.Arith.Word

/-!
# Instructions of the stack machine

An instruction is an operation and at most one operand. Binary operations take `b` and then `a`
from the stack and leave `a OP b`; comparisons and logical operations leave `1` or `0`.

## Main definitions

* `Opcode` — the fifteen operations.
* `Opcode.mnemonic`, `Opcode.ofMnemonic?` — their names in assembly, read in any letter case.
* `Instruction` — an operation with an optional operand.
-/
namespace ChessMachine

inductive Opcode where
  /-- Pushes the operand. -/
  | push
  | add
  | mul
  | eq
  | lt
  | gt
  | neq
  /-- Leaves `1` if both values are nonzero. -/
  | and
  /-- Leaves `1` if either value is nonzero. -/
  | or
  /-- Pushes the cell at the operand or, without one, at an address taken from the stack. -/
  | load
  /-- Takes a value into the cell at the operand. -/
  | store
  /-- Goes on at the operand. -/
  | jmp
  /-- Takes a condition and goes on at the operand if it is zero. -/
  | jif
  /-- Takes a value and prints it, as a character if the operand is nonzero. -/
  | print
  | halt
deriving DecidableEq

namespace Opcode

def all : List Opcode :=
  [push, add, mul, eq, lt, gt, neq, and, or, load, store, jmp, jif, print, halt]

def mnemonic : Opcode → String
  | push => "PUSH"
  | add => "ADD"
  | mul => "MUL"
  | eq => "EQ"
  | lt => "LT"
  | gt => "GT"
  | neq => "NEQ"
  | and => "AND"
  | or => "OR"
  | load => "LOAD"
  | store => "STORE"
  | jmp => "JMP"
  | jif => "JIF"
  | print => "PRINT"
  | halt => "HALT"

instance : ToString Opcode := ⟨mnemonic⟩

def ofMnemonic? (text : String) : Option Opcode :=
  all.find? fun op => op.mnemonic.toList.map Char.toLower == text.toList.map Char.toLower

end Opcode

structure Instruction where
  opcode : Opcode
  operand : Option Word := none
deriving DecidableEq

namespace Instruction

/-- One line of assembly, without its number. -/
def text (inst : Instruction) : String :=
  match inst.operand with
  | some w => s!"{inst.opcode} {w}"
  | none => inst.opcode.mnemonic

end Instruction

end ChessMachine
