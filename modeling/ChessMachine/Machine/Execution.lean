import ChessMachine.Machine.Fault
import ChessMachine.Machine.Program

/-!
# Execution

The machine has a stack, a memory of fixed size, an instruction pointer and the tokens printed
so far. It stops at a halt, past the last instruction, or at a fault.

## Main definitions

* `Machine` — the state of an execution.
* `Machine.step` — executes one instruction.
* `Machine.finish` — executes instructions until the machine stops.
* `Program.execute` — what a program prints from a fresh machine.
-/
namespace ChessMachine

structure Machine where
  /-- The top of the stack comes first. -/
  stack : List Word
  memory : Array Word
  ip : Nat
  output : Array String

namespace Machine

/-- A machine with `cells` zeroed cells at the first instruction. -/
def fresh (cells : Nat) : Machine := ⟨[], Array.replicate cells 0, 0, #[]⟩

inductive Status where
  | running (m : Machine)
  | halted (m : Machine)
  | failed (f : Fault)

@[inline] def cell? (m : Machine) (address : Word) : Option Word :=
  if 0 ≤ address.val then m.memory[address.val.toNat]? else none

@[inline] def isCell (m : Machine) (address : Word) : Bool :=
  0 ≤ address.val && address.val.toNat < m.memory.size

/-- Takes `b` and then `a` from the stack and leaves `f a b`. -/
@[inline] def arithmetic (m : Machine) (opcode : Opcode) (f : Word → Word → Option Word) : Status :=
  match m.stack with
  | b :: a :: rest =>
    match f a b with
    | some value => .running { m with stack := value :: rest, ip := m.ip + 1 }
    | none => .failed (.overflow m.ip opcode)
  | _ => .failed (.stackUnderflow m.ip opcode)

/-- Takes `b` and then `a` from the stack and leaves whether `f a b` holds. -/
@[inline] def compare (m : Machine) (opcode : Opcode) (f : Int → Int → Bool) : Status :=
  match m.stack with
  | b :: a :: rest =>
    .running { m with stack := Word.ofBool (f a.val b.val) :: rest, ip := m.ip + 1 }
  | _ => .failed (.stackUnderflow m.ip opcode)

/-- Pushes the cell at `address`; `rest` is the stack below it. -/
@[inline] def fetch (m : Machine) (address : Word) (rest : List Word) : Status :=
  match m.cell? address with
  | some value => .running { m with stack := value :: rest, ip := m.ip + 1 }
  | none => .failed (.addressOutOfRange m.ip address m.memory.size)

/-- The text of a printed value: the character of that code point, or a decimal number. -/
def token? (asChar : Bool) (value : Word) : Option String :=
  if asChar then
    match value.toNat? with
    | some n => if n.isValidChar then some (String.singleton (Char.ofNat n)) else none
    | none => none
  else some (toString value)

/-- The instruction that `target` names, if there is one there or the program ends there. -/
@[inline] def target? (length : Nat) (target : Word) : Option Nat :=
  if 0 ≤ target.val ∧ target.val.toNat ≤ length then some target.val.toNat else none

@[inline] def step (code : Array Instruction) (m : Machine) : Status :=
  match code[m.ip]? with
  | none => .halted m
  | some ⟨opcode, operand⟩ =>
    match opcode with
    | .push =>
      match operand with
      | some value => .running { m with stack := value :: m.stack, ip := m.ip + 1 }
      | none => .failed (.missingOperand m.ip .push)
    | .add => m.arithmetic .add Bounded.add?
    | .mul => m.arithmetic .mul Bounded.mul?
    | .eq => m.compare .eq fun a b => a == b
    | .lt => m.compare .lt fun a b => decide (a < b)
    | .gt => m.compare .gt fun a b => decide (b < a)
    | .neq => m.compare .neq fun a b => a != b
    | .and => m.compare .and fun a b => a != 0 && b != 0
    | .or => m.compare .or fun a b => a != 0 || b != 0
    | .load =>
      match operand with
      | some address => m.fetch address m.stack
      | none =>
        match m.stack with
        | address :: rest => m.fetch address rest
        | [] => .failed (.stackUnderflow m.ip .load)
    | .store =>
      match operand with
      | none => .failed (.missingOperand m.ip .store)
      | some address =>
        match m.stack with
        | [] => .failed (.stackUnderflow m.ip .store)
        | value :: rest =>
          if m.isCell address then
            .running { m with
              stack := rest, memory := m.memory.setIfInBounds address.val.toNat value,
              ip := m.ip + 1 }
          else .failed (.addressOutOfRange m.ip address m.memory.size)
    | .jmp =>
      match operand with
      | none => .failed (.missingOperand m.ip .jmp)
      | some target =>
        match target? code.size target with
        | some ip => .running { m with ip := ip }
        | none => .failed (.invalidJump m.ip target code.size)
    | .jif =>
      match operand with
      | none => .failed (.missingOperand m.ip .jif)
      | some target =>
        match target? code.size target with
        | none => .failed (.invalidJump m.ip target code.size)
        | some ip =>
          match m.stack with
          | [] => .failed (.stackUnderflow m.ip .jif)
          | value :: rest =>
            .running { m with stack := rest, ip := if value.val = 0 then ip else m.ip + 1 }
    | .print =>
      match m.stack with
      | [] => .failed (.stackUnderflow m.ip .print)
      | value :: rest =>
        match token? (operand.any fun mode => mode.val != 0) value with
        | some token =>
          .running { m with stack := rest, ip := m.ip + 1, output := m.output.push token }
        | none => .failed (.invalidChar m.ip value)
    | .halt => .halted m

/-- Where an execution stops, if it ever does. -/
def finish (code : Array Instruction) (m : Machine) : Option Status :=
  match step code m with
  | .running m => m |>.finish code
  | status => some status
partial_fixpoint

end Machine

namespace Program

/-- The tokens that a program prints, executed on a fresh machine. A program that never stops
counts as unfinished, an answer that no execution waits long enough to give. -/
def execute (p : Program) : Except Fault (List String) :=
  match Machine.finish p.code (Machine.fresh p.memorySize) with
  | some (.halted m) => .ok m.output.toList
  | some (.failed f) => .error f
  | _ => .error .unfinished

end Program

end ChessMachine
