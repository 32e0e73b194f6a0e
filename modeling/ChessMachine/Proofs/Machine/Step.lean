import ChessMachine.Proofs.Machine.Meaning

/-!
# Single instructions

The machine carries out an operation as its direct meaning says, and a jump whose target lies in
the program goes there.

## Main definitions

* `Data.machine` — a machine that holds the data.

## Main results

* `step_op`, `step_jmp`, `step_jif` — one instruction.
-/
namespace ChessMachine

open Machine (step Status)

def Data.machine (d : Data) (ip : Nat) : Machine := ⟨d.stack, d.memory, ip, d.output⟩

namespace Outcome

def status (ip : Nat) : Outcome → Status
  | goesOn d => .running (d.machine (ip + 1))
  | ended d => .halted (d.machine ip)
  | failed e => .failed (e.fault ip)

end Outcome

variable {code : Array Instruction} {d : Data} {ip : Nat}

theorem fetch_machine (d : Data) (address : Word) (rest : List Word) :
    (d.machine ip).fetch address rest
      = (({ d with stack := rest } : Data).fetch address).status ip := by
  by_cases h : d.HasCell address
  · have there : d.memory[address.val.toNat]? = some (getElem d.memory address.val.toNat h.2) :=
      Array.getElem?_eq_getElem h.2
    simp only [Machine.fetch, Machine.cell?, Data.machine, if_pos h.1, there, Data.fetch,
      Data.get, dif_pos (show ({ d with stack := rest } : Data).HasCell address from h)]
    rfl
  · have missing : (d.machine ip).cell? address = none := by
      by_cases sign : 0 ≤ address.val
      · have bound : d.memory.size ≤ address.val.toNat := Nat.le_of_not_lt fun lt => h ⟨sign, lt⟩
        rw [Machine.cell?, if_pos sign]
        exact Array.getElem?_eq_none bound
      · simp [Machine.cell?, sign]
    simp only [Machine.fetch, missing, Data.fetch,
      Data.get, dif_neg (show ¬ ({ d with stack := rest } : Data).HasCell address from h)]
    rfl

theorem isCell_machine {address : Word} :
    (d.machine ip).isCell address = true ↔ d.HasCell address := by
  rw [Machine.isCell, Bool.and_eq_true, decide_eq_true_iff, decide_eq_true_iff]
  rfl

theorem arithmetic_machine (d : Data) (opcode : Opcode) (f : Word → Word → Option Word) :
    (d.machine ip).arithmetic opcode f = (d.arithmetic opcode f).status ip := by
  unfold Machine.arithmetic Data.arithmetic Data.machine
  rcases d.stack with _ | ⟨b, _ | ⟨a, rest⟩⟩
  · rfl
  · rfl
  · cases h : f a b with
    | none =>
      simp only [h]
      rfl
    | some value =>
      simp only [h]
      rfl

theorem compare_machine (d : Data) (opcode : Opcode) (f : Int → Int → Bool) :
    (d.machine ip).compare opcode f = (d.compare opcode f).status ip := by
  unfold Machine.compare Data.compare Data.machine
  rcases d.stack with _ | ⟨b, _ | ⟨a, rest⟩⟩ <;> rfl

theorem store_machine (d : Data) (address : Word) :
    (match d.stack with
      | [] => .failed (.stackUnderflow ip .store)
      | value :: rest =>
        if (d.machine ip).isCell address then
          .running { d.machine (ip + 1) with
            stack := rest, memory := d.memory.setIfInBounds address.val.toNat value }
        else .failed (.addressOutOfRange ip address d.memory.size))
      = (d.pop .store fun value d => d.put address value).status ip := by
  unfold Data.pop
  rcases d.stack with _ | ⟨value, rest⟩
  · rfl
  · by_cases cell : d.HasCell address
    · have there : ({ d with stack := rest } : Data).HasCell address := cell
      simp only [isCell_machine.2 cell, if_true, Data.put, if_pos there]
      rfl
    · have missing : ¬ ({ d with stack := rest } : Data).HasCell address := cell
      simp only [mt isCell_machine.1 cell, Data.put, if_neg missing]
      rfl

theorem print_machine (d : Data) (asChar : Bool) :
    (match d.stack with
      | [] => .failed (.stackUnderflow ip .print)
      | value :: rest =>
        match Machine.token? asChar value with
        | some token =>
          .running { d.machine (ip + 1) with stack := rest, output := d.output.push token }
        | none => .failed (.invalidChar ip value))
      = (d.print asChar).status ip := by
  unfold Data.print Data.pop
  rcases d.stack with _ | ⟨value, rest⟩
  · rfl
  · cases h : Machine.token? asChar value <;> simp only [h] <;> rfl

/-- The machine carries out an operation as its meaning says. -/
theorem step_op {o : Op} (h : code[ip]? = some o.instruction) :
    step code (d.machine ip) = (o.run d).status ip := by
  obtain ⟨stack, memory, output⟩ := d
  rw [step, show code[(Data.machine ⟨stack, memory, output⟩ ip).ip]? = _ from h]
  cases o with
  | push value => rfl
  | add | mul => exact arithmetic_machine ..
  | eq | lt | gt | neq | and | or => exact compare_machine ..
  | load address => exact fetch_machine ..
  | loadIndirect =>
    cases stack with
    | nil => rfl
    | cons address rest => exact fetch_machine ⟨address :: rest, memory, output⟩ address rest
  | store address => exact store_machine ⟨stack, memory, output⟩ (.ofNat address)
  | print => exact print_machine ⟨stack, memory, output⟩ false
  | printChar => exact print_machine ⟨stack, memory, output⟩ true
  | halt => rfl

/-! ## Jumps -/

/-- A jump may lead to any instruction, and to the end of the program. -/
theorem target?_ofNat {target length : Nat} (le : target ≤ length)
    (small : length < 0x8000000000000000) :
    Machine.target? length (.ofNat target) = some target := by
  have val := Word.val_ofNat (Nat.lt_of_le_of_lt le small)
  rw [Machine.target?, val, if_pos ⟨Int.natCast_nonneg _, le⟩]
  rfl

/-- A jump leads to its target. -/
theorem step_jmp {target : Nat} (h : code[ip]? = some ⟨.jmp, some (.ofNat target)⟩)
    (le : target ≤ code.size) (small : code.size < 0x8000000000000000) :
    step code (d.machine ip) = .running (d.machine target) := by
  rw [step, show code[(d.machine ip).ip]? = _ from h]
  simp only [target?_ofNat le small]
  rfl

/-- A conditional jump takes a value, and leads to its target if that is zero. -/
theorem step_jif {target : Nat} (h : code[ip]? = some ⟨.jif, some (.ofNat target)⟩)
    (le : target ≤ code.size) (small : code.size < 0x8000000000000000) :
    step code (d.machine ip) =
      match d.stack with
      | [] => .failed (.stackUnderflow ip .jif)
      | value :: rest =>
        .running (({ d with stack := rest } : Data).machine
          (if value.val = 0 then target else ip + 1)) := by
  rw [step, show code[(d.machine ip).ip]? = _ from h]
  simp only [target?_ofNat le small]
  rfl

end ChessMachine
