import ChessMachine.Machine.Fault
import ChessMachine.Machine.Program

/-!
# Building programs

A builder collects instructions. A jump forward is emitted before its target is known and gives
out a patch, with which its target is set later; a program is finished once no jump is pending.

## Main definitions

* `Builder` — the instructions so far and the jumps that still need a target.
* `Builder.emit` — appends an instruction.
* `Builder.forward`, `Builder.patchTo`, `Builder.patchHere` — jumps whose target comes later.
* `Builder.countingLoop`, `Builder.guarded` — the structured shapes.
* `Builder.build` — the finished program.
-/
namespace ChessMachine

/-- The right to set the target of the jump at `index`. -/
structure Patch where
  index : Nat
deriving DecidableEq

/-- How often a counting loop runs. -/
inductive Limit where
  | literal (times : Word)
  /-- As often as this cell says each time the loop is about to run its body. -/
  | cell (address : Nat)
deriving DecidableEq

structure Builder where
  code : Array Instruction := #[]
  /-- The jumps without a target. -/
  pending : List Nat := []

inductive Jump where
  | always
  | ifZero
deriving DecidableEq

namespace Jump

def opcode : Jump → Opcode
  | always => .jmp
  | ifZero => .jif

end Jump

/-- What the end of a counting loop needs to know of its beginning. -/
structure OpenLoop where
  counter : Nat
  header : Nat
  exit : Patch

namespace Builder

def here (b : Builder) : Nat := b.code.size

@[inline] def emit (b : Builder) (inst : Instruction) : Builder :=
  { b with code := b.code.push inst }

@[inline] def push (b : Builder) (value : Word) : Builder :=
  b.emit ⟨.push, some value⟩

@[inline] def load (b : Builder) (address : Nat) : Builder :=
  b.emit ⟨.load, some (.ofNat address)⟩

@[inline] def store (b : Builder) (address : Nat) : Builder :=
  b.emit ⟨.store, some (.ofNat address)⟩

def increment (b : Builder) (address : Nat) : Builder :=
  (((b.load address).push 1).emit ⟨.add, none⟩).store address

/-- Emits a jump to an instruction that is known by its index. -/
def jump (b : Builder) (kind : Jump) (target : Nat) : Builder :=
  b.emit ⟨kind.opcode, some (.ofNat target)⟩

/-- Emits a jump whose target is set later. -/
def forward (b : Builder) (kind : Jump) : Builder × Patch :=
  let index := b.here
  ({ code := b.code.push ⟨kind.opcode, some 0⟩, pending := b.pending ++ [index] }, ⟨index⟩)

def patchTo (b : Builder) (patch : Patch) (target : Nat) : Builder where
  code := b.code.modify patch.index fun inst => { inst with operand := some (.ofNat target) }
  pending := b.pending.filter (· != patch.index)

/-- Makes a jump lead to the next instruction. -/
def patchHere (b : Builder) (patch : Patch) : Builder :=
  let target := b.here
  b.patchTo patch target

def loadLimit (b : Builder) : Limit → Builder
  | .literal times => b.push times
  | .cell address => b.load address

/-- Resets the counter and emits the test that ends the loop. -/
def openLoop (b : Builder) (counter : Nat) (limit : Limit) : Builder × OpenLoop :=
  let b := (b.push 0).store counter
  let header := b.here
  let b := (((b.load counter).loadLimit limit).emit ⟨.lt, none⟩)
  let (b, exit) := b.forward .ifZero
  (b, { counter, header, exit })

/-- Counts one run of the body and goes back to the test. -/
def closeLoop (b : Builder) (loop : OpenLoop) : Builder :=
  ((b.increment loop.counter).jump .always loop.header).patchHere loop.exit

/-- Runs `body` while the counter, which starts at zero and counts the runs, is below `limit`. -/
def countingLoop (b : Builder) (counter : Nat) (limit : Limit) (body : Builder → Builder) :
    Builder :=
  let (b, loop) := b.openLoop counter limit
  (body b).closeLoop loop

/-- Runs `body` only if `cond` leaves a nonzero value. -/
def guarded (b : Builder) (cond body : Builder → Builder) : Builder :=
  let (b, skip) := (cond b).forward .ifZero
  (body b).patchHere skip

/-- The finished program, or the first jump that has no target. -/
def build (b : Builder) : Except Fault Program :=
  match b.pending.min? with
  | some index => .error (.unresolvedJump index)
  | none => .ok ⟨b.code⟩

end Builder

end ChessMachine
