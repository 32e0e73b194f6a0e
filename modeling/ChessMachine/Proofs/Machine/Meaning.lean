import ChessMachine.Machine.Code

/-!
# The direct meaning of structured code

A tree of code is read as what it says: operations act on a stack, a memory and an output, a
guard asks for a value, and a loop tests its limit before each run of its body. There are no
instructions and no jumps.

## Main definitions

* `Data` — a stack, a memory and the printed tokens.
* `Mishap` — what can go wrong on the way.
* `Outcome` — how a piece of code leaves the data.
* `Op.run`, `Code.run` — the meaning of operations and of trees; `none` is a loop without end.
-/
namespace ChessMachine

/-- What a machine holds beside its instruction pointer. -/
structure Data where
  /-- The top of the stack comes first. -/
  stack : List Word
  memory : Array Word
  output : Array String

/-- What can go wrong, wherever it happens. -/
inductive Mishap where
  | stackUnderflow (opcode : Opcode)
  | addressOutOfRange (address : Word) (size : Nat)
  | overflow (opcode : Opcode)
  | invalidChar (value : Word)
deriving DecidableEq

/-- The fault of the instruction at `ip` that meets a mishap. -/
def Mishap.fault (ip : Nat) : Mishap → Fault
  | stackUnderflow opcode => .stackUnderflow ip opcode
  | addressOutOfRange address size => .addressOutOfRange ip address size
  | overflow opcode => .overflow ip opcode
  | invalidChar value => .invalidChar ip value

/-- How a piece of code leaves the data. -/
inductive Outcome where
  | goesOn (d : Data)
  /-- A halt ended everything. -/
  | ended (d : Data)
  | failed (e : Mishap)

namespace Outcome

def data? : Outcome → Option Data
  | goesOn d | ended d => some d
  | failed _ => none

/-- Goes on with `next`, if anything goes on. -/
def andThen (first : Option Outcome) (next : Data → Option Outcome) : Option Outcome := do
  match ← first with
  | goesOn d => next d
  | o => return o

end Outcome

namespace Data

def fresh (cells : Nat) : Data := ⟨[], Array.replicate cells 0, #[]⟩

def push (d : Data) (value : Word) : Data := { d with stack := value :: d.stack }

/-! ## Memory -/

/-- There is a cell at the address. -/
def HasCell (d : Data) (address : Word) : Prop :=
  0 ≤ address.val ∧ address.val.toNat < d.memory.size

instance (d : Data) (address : Word) : Decidable (d.HasCell address) :=
  inferInstanceAs (Decidable (_ ∧ _))

def get (d : Data) (address : Word) : Except Mishap Word :=
  if h : d.HasCell address then .ok (getElem d.memory address.val.toNat h.2)
  else .error (.addressOutOfRange address d.memory.size)

def put (d : Data) (address value : Word) : Outcome :=
  if d.HasCell address then
    .goesOn { d with memory := d.memory.setIfInBounds address.val.toNat value }
  else .failed (.addressOutOfRange address d.memory.size)

def count (d : Data) (address : Word) : Outcome :=
  match d.get address with
  | .error e => .failed e
  | .ok value =>
    match value.add? 1 with
    | some next => d.put address next
    | none => .failed (.overflow .add)

theorem hasCell_ofNat {d : Data} {i : Nat} (bound : i < 0x8000000000000000) :
    d.HasCell (.ofNat i) ↔ i < d.memory.size := by
  rw [HasCell, Word.val_ofNat bound, Int.toNat_natCast]
  exact and_iff_right (Int.natCast_nonneg i)

theorem get_ofNat {d : Data} {i : Nat} {value : Word} (bound : i < 0x8000000000000000)
    (h : d.memory[i]? = some value) : d.get (.ofNat i) = .ok value := by
  obtain ⟨lt, rfl⟩ := Array.getElem?_eq_some_iff.1 h
  rw [get, dif_pos ((hasCell_ofNat bound).2 lt)]
  simp only [Word.val_ofNat bound, Int.toNat_natCast]

theorem put_ofNat {d : Data} {i : Nat} (value : Word) (bound : i < 0x8000000000000000)
    (lt : i < d.memory.size) :
    d.put (.ofNat i) value = .goesOn { d with memory := d.memory.setIfInBounds i value } := by
  rw [put, if_pos ((hasCell_ofNat bound).2 lt), Word.val_ofNat bound, Int.toNat_natCast]

@[simp] theorem get_withStack (d : Data) (stack : List Word) (address : Word) :
    ({ d with stack := stack } : Data).get address = d.get address := rfl

/-! ## The stack -/

/-- Takes `b` and then `a` and leaves `f a b`. -/
def arithmetic (d : Data) (opcode : Opcode) (f : Word → Word → Option Word) : Outcome :=
  match d.stack with
  | b :: a :: rest =>
    match f a b with
    | some value => .goesOn { d with stack := value :: rest }
    | none => .failed (.overflow opcode)
  | _ => .failed (.stackUnderflow opcode)

/-- Takes `b` and then `a` and leaves `1` if `f a b` holds, else `0`. -/
def compare (d : Data) (opcode : Opcode) (f : Int → Int → Bool) : Outcome :=
  match d.stack with
  | b :: a :: rest => .goesOn { d with stack := Word.ofBool (f a.val b.val) :: rest }
  | _ => .failed (.stackUnderflow opcode)

def fetch (d : Data) (address : Word) : Outcome :=
  match d.get address with
  | .ok value => .goesOn (d.push value)
  | .error e => .failed e

def pop (d : Data) (opcode : Opcode) (f : Word → Data → Outcome) : Outcome :=
  match d.stack with
  | value :: rest => f value { d with stack := rest }
  | [] => .failed (.stackUnderflow opcode)

def print (d : Data) (asChar : Bool) : Outcome :=
  d.pop .print fun value d =>
    match Machine.token? asChar value with
    | some token => .goesOn { d with output := d.output.push token }
    | none => .failed (.invalidChar value)

end Data

namespace Op

def run : Op → Data → Outcome
  | push value, d => .goesOn (d.push value)
  | add, d => d.arithmetic .add Bounded.add?
  | mul, d => d.arithmetic .mul Bounded.mul?
  | eq, d => d.compare .eq fun a b => a == b
  | lt, d => d.compare .lt fun a b => a < b
  | gt, d => d.compare .gt fun a b => b < a
  | neq, d => d.compare .neq fun a b => a != b
  | and, d => d.compare .and fun a b => a != 0 && b != 0
  | or, d => d.compare .or fun a b => a != 0 || b != 0
  | load address, d => d.fetch (.ofNat address)
  | loadIndirect, d => d.pop .load fun address d => d.fetch address
  | store address, d => d.pop .store fun value d => d.put (.ofNat address) value
  | print, d => d.print false
  | printChar, d => d.print true
  | halt, d => .ended d

def runAll : List Op → Data → Outcome
  | [], d => .goesOn d
  | o :: rest, d =>
    match o.run d with
    | .goesOn d => runAll rest d
    | outcome => outcome

theorem runAll_append (xs ys : List Op) (d : Data) :
    runAll (xs ++ ys) d =
      match runAll xs d with
      | .goesOn d => runAll ys d
      | o => o := by
  induction xs generalizing d with
  | nil => rfl
  | cons o rest ih =>
    rw [List.cons_append, runAll, runAll]
    cases o.run d with
    | goesOn d => exact ih d
    | ended | failed => rfl

end Op

namespace Limit

/-- How often the loop is to run, as things stand. -/
def value (l : Limit) (d : Data) : Except Mishap Word :=
  match l with
  | literal times => .ok times
  | cell address => d.get (.ofNat address)

end Limit

def Data.isBelow (d : Data) (counter : Nat) (limit : Limit) : Except Mishap Bool := do
  return (← d.get (.ofNat counter)).val < (← limit.value d).val

/-- Runs `body` as long as `test` says so. -/
def Data.repeatWhile (test : Data → Except Mishap Bool) (body : Data → Option Outcome) (d : Data) :
    Option Outcome :=
  match test d with
  | .error e => some (.failed e)
  | .ok false => some (.goesOn d)
  | .ok true => do
    match ← body d with
    | .goesOn d => d |>.repeatWhile test body
    | o => return o
partial_fixpoint

namespace Code

open Outcome

/-- Takes a value and runs `body` if it is nonzero. -/
def ifNonzero (body : Data → Option Outcome) (d : Data) : Option Outcome :=
  match d.stack with
  | [] => some (.failed (.stackUnderflow .jif))
  | value :: rest =>
    let d := { d with stack := rest }
    if value.val = 0 then some (.goesOn d) else body d

def turn (counter : Nat) (body : Data → Option Outcome) (d : Data) : Option Outcome :=
  andThen (body d) fun d => some (d.count (.ofNat counter))

/-- The meaning of a tree, if it ends at all. -/
def run : Code → Data → Option Outcome
  | block ops, d => some (Op.runAll ops d)
  | seq first second, d => andThen (first.run d) second.run
  | guarded cond body, d => andThen (cond.run d) (ifNonzero body.run)
  | loop counter limit body, d =>
    andThen (some (d.put (.ofNat counter) 0))
      (Data.repeatWhile (·.isBelow counter limit) (turn counter body.run))

/-- Writing a value to a cell that is there. -/
theorem run_push_store (d : Data) (value : Word) {cell : Nat} (bound : cell < 0x8000000000000000)
    (lt : cell < d.memory.size) :
    (block [.push value, .store cell]).run d
      = some (.goesOn { d with memory := d.memory.setIfInBounds cell value }) := by
  have stored := Data.put_ofNat (d := d) value bound lt
  simp only [run, Op.runAll, Op.run, Data.push, Data.pop, stored]

/-- The second of two trees starts with the data that the first one leaves. -/
theorem run_append {c : Code} {d d' : Data} (h : c.run d = some (.goesOn d')) (next : Code) :
    (c ++ next).run d = next.run d' := by
  show andThen (c.run d) next.run = _
  rw [h]
  rfl

/-- After a mishap nothing more is run. -/
theorem run_append_of_failed {c : Code} {d : Data} {e : Mishap} (h : c.run d = some (.failed e))
    (next : Code) : (c ++ next).run d = some (.failed e) := by
  show andThen (c.run d) next.run = _
  rw [h]
  rfl

end Code

end ChessMachine
