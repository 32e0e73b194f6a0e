import ChessMachine.Machine.Builder
import ChessMachine.Machine.Execution

/-!
# Structured code

The programs of this library are written as trees of straight-line blocks, guards and counting
loops, and only then turned into instructions with jumps.

## Main definitions

* `Op` — the straight-line operations.
* `Code` — trees of them.
* `Code.emit`, `Code.compile` — the instructions of a tree.
-/
namespace ChessMachine

/-- Operations that do not jump. -/
inductive Op where
  | push (value : Word)
  | add
  | mul
  | eq
  | lt
  | gt
  | neq
  | and
  | or
  | load (address : Nat)
  | loadIndirect
  | store (address : Nat)
  | print
  | printChar
  | halt
deriving DecidableEq

namespace Op

def instruction : Op → Instruction
  | push value => { opcode := .push, operand := some value }
  | add => { opcode := .add }
  | mul => { opcode := .mul }
  | eq => { opcode := .eq }
  | lt => { opcode := .lt }
  | gt => { opcode := .gt }
  | neq => { opcode := .neq }
  | and => { opcode := .and }
  | or => { opcode := .or }
  | load address => { opcode := .load, operand := some (.ofNat address) }
  | loadIndirect => { opcode := .load }
  | store address => { opcode := .store, operand := some (.ofNat address) }
  | print => { opcode := .print }
  | printChar => { opcode := .print, operand := some 1 }
  | halt => { opcode := .halt }

end Op

inductive Code where
  /-- Operations one after the other. -/
  | block (ops : List Op)
  | seq (first second : Code)
  /-- Runs `body` only if `cond` leaves a nonzero value. -/
  | guarded (cond body : Code)
  /-- Runs `body` while the counter is below the limit. -/
  | loop (counter : Nat) (limit : Limit) (body : Code)

namespace Code

instance : Append Code := ⟨seq⟩

def all : List Code → Code
  | [] => block []
  | c :: rest => c ++ all rest

def increment (address : Nat) : Code := block [.load address, .push 1, .add, .store address]

def emit : Code → Builder → Builder
  | block ops, b => ops.foldl (fun b o => b.emit o.instruction) b
  | seq first second, b => second.emit (first.emit b)
  | guarded cond body, b => b.guarded cond.emit body.emit
  | loop counter limit body, b => b.countingLoop counter limit body.emit

def compile (c : Code) : Except Fault Program := (c.emit {}).build

/-- The tokens that the program of a tree prints. -/
def execute (c : Code) : Except Fault (List String) := do (← c.compile).execute

end Code

end ChessMachine
