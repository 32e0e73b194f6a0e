import ChessMachine.Proofs.Machine.Memory
import ChessMachine.Proofs.Machine.Run

/-!
# Accesses to memory

The memory of a machine keeps its size. Since a program executes with a cell for every address
that it names directly, such an address is missing only if no program could have it; an address
from the stack is missing beyond the memory of this one.

## Main definitions

* `Machine.Status.HasCells` — the size of the memory.
* `Machine.AccessesDirectly`, `Machine.AccessesIndirectly` — where the address comes from.
* `Machine.FailsIff` — what an access answers.

## Main results

* `Machine.hasCells_run` — no instruction changes it.
* `Machine.AccessesDirectly.failsIff`, `Machine.AccessesIndirectly.failsIff` — an access fails
  exactly if there is no such cell.
* `Program.access_fails_iff` — which accesses of a program are faults.
-/
namespace ChessMachine

namespace Machine

variable {code : Array Instruction} {m : Machine} {opcode : Opcode} {address : Word} {cells : Nat}

/-! ## The size of the memory -/

/-- The machine has a memory of this size, unless it has failed. -/
def Status.HasCells (cells : Nat) : Status → Prop
  | running m | halted m => m.memory.size = cells
  | failed _ => True

theorem hasCells_arithmetic (m : Machine) (opcode : Opcode) (f : Word → Word → Option Word) :
    (m.arithmetic opcode f).HasCells m.memory.size := by
  unfold arithmetic
  split
  · split <;> trivial
  · trivial

theorem hasCells_compare (m : Machine) (opcode : Opcode) (f : Int → Int → Bool) :
    (m.compare opcode f).HasCells m.memory.size := by
  unfold compare
  split <;> trivial

theorem hasCells_fetch (m : Machine) (address : Word) (rest : List Word) :
    (m.fetch address rest).HasCells m.memory.size := by
  unfold fetch
  split <;> trivial

/-- No instruction changes the size of the memory. -/
theorem hasCells_step (code : Array Instruction) (m : Machine) :
    (step code m).HasCells m.memory.size := by
  rw [step]
  cases code[m.ip]? with
  | none => rfl
  | some inst =>
    obtain ⟨opcode, operand⟩ := inst
    cases opcode with
    | add | mul => exact hasCells_arithmetic ..
    | eq | lt | gt | neq | and | or => exact hasCells_compare ..
    | halt => rfl
    | push => cases operand <;> trivial
    | load =>
      cases operand with
      | some address => exact hasCells_fetch ..
      | none =>
        dsimp only
        split
        · exact hasCells_fetch ..
        · trivial
    | store =>
      dsimp only
      split
      · trivial
      · split
        · trivial
        · split
          · exact Array.size_setIfInBounds
          · trivial
    | jmp =>
      dsimp only
      split
      · trivial
      · split <;> trivial
    | jif =>
      dsimp only
      split
      · trivial
      · split
        · trivial
        · split <;> trivial
    | print =>
      dsimp only
      split
      · trivial
      · split <;> trivial

/-- Nor does a run. -/
theorem hasCells_run (code : Array Instruction) (n : Nat) (m : Machine) :
    (run code n m).HasCells m.memory.size := by
  induction n generalizing m with
  | zero => rfl
  | succ n ih =>
    have first := hasCells_step code m
    rw [run]
    cases next : step code m with
    | running m' =>
      rw [next] at first
      have same : m'.memory.size = m.memory.size := first
      exact same ▸ ih m'
    | halted m' =>
      rw [next] at first
      exact first
    | failed f => trivial

/-! ## Accesses -/

/-- The next instruction is a load or a store of a cell that it names. A store needs a value. -/
inductive AccessesDirectly (code : Array Instruction) (m : Machine) (address : Word) : Prop where
  | load (next : code[m.ip]? = some ⟨.load, some address⟩)
  | store (next : code[m.ip]? = some ⟨.store, some address⟩) (some : m.stack ≠ [])

/-- The next instruction is a load of a cell whose address it takes from the stack. -/
structure AccessesIndirectly (code : Array Instruction) (m : Machine) (address : Word) : Prop where
  next : code[m.ip]? = some ⟨.load, none⟩
  top : m.stack.head? = some address

/-- For want of the cell at `address` the next instruction fails if `missing` holds, and it is
carried out otherwise. -/
def FailsIff (code : Array Instruction) (m : Machine) (address : Word) (missing : Prop) : Prop :=
  (step code m = .failed (.addressOutOfRange m.ip address m.memory.size) ↔ missing) ∧
    (¬ missing → ∃ m', step code m = .running m')

theorem failsIff_of {missing : Prop} (fails : missing →
      step code m = .failed (.addressOutOfRange m.ip address m.memory.size))
    (goesOn : ¬ missing → ∃ m', step code m = .running m') : FailsIff code m address missing := by
  refine ⟨⟨fun failed => ?_, fails⟩, goesOn⟩
  by_cases absent : missing
  · exact absent
  · obtain ⟨m', running⟩ := goesOn absent
    cases failed.symm.trans running

def Lacks (m : Machine) (address : Word) : Prop :=
  address.val < 0 ∨ (m.memory.size : Int) ≤ address.val

theorem isCell_iff_not_lacks : m.isCell address = true ↔ ¬ m.Lacks address := by
  rw [isCell, Bool.and_eq_true, decide_eq_true_iff, decide_eq_true_iff, Lacks]
  omega

theorem fetch_of_lacks (lacks : m.Lacks address) (rest : List Word) :
    m.fetch address rest = .failed (.addressOutOfRange m.ip address m.memory.size) := by
  have missing : m.cell? address = none := by
    rw [cell?]
    split
    · refine Array.getElem?_eq_none ?_
      rw [Lacks] at lacks
      omega
    · rfl
  rw [fetch, missing]

theorem exists_fetch_of_not_lacks (there : ¬ m.Lacks address) (rest : List Word) :
    ∃ m', m.fetch address rest = .running m' := by
  rw [Lacks, not_or] at there
  obtain ⟨nonneg, lt⟩ := there
  have bound : address.val.toNat < m.memory.size := by omega
  have found : m.cell? address = some (getElem m.memory address.val.toNat bound) := by
    rw [cell?, if_pos (Int.not_lt.1 nonneg)]
    exact Array.getElem?_eq_getElem bound
  exact ⟨_, by rw [fetch, found]⟩

/-- A fetch fails exactly if there is no such cell, whatever else is on the stack. -/
theorem failsIff_of_fetch (rest : List Word) (fetches : step code m = m.fetch address rest) :
    FailsIff code m address (m.Lacks address) :=
  failsIff_of (fun lacks => fetches.trans (fetch_of_lacks lacks rest)) fun there => by
    obtain ⟨m', fetched⟩ := exists_fetch_of_not_lacks there rest
    exact ⟨m', fetches.trans fetched⟩

theorem failsIff_of_store (next : code[m.ip]? = some ⟨.store, some address⟩)
    (some : m.stack ≠ []) : FailsIff code m address (m.Lacks address) := by
  obtain ⟨value, rest, stack⟩ := List.exists_cons_of_ne_nil some
  refine failsIff_of (fun lacks => ?_) fun there => ?_
  · rw [step, next]
    simp only [stack]
    rw [if_neg (mt isCell_iff_not_lacks.1 (not_not_intro lacks))]
  · rw [step, next]
    simp only [stack]
    rw [if_pos (isCell_iff_not_lacks.2 there)]
    exact ⟨_, rfl⟩

/-- A load or store of a named cell fails exactly if there is no such cell. -/
theorem AccessesDirectly.failsIff (access : AccessesDirectly code m address) :
    FailsIff code m address (m.Lacks address) := by
  cases access with
  | load next => exact failsIff_of_fetch m.stack (by rw [step, next])
  | store next some => exact failsIff_of_store next some

/-- A load from an address on the stack fails exactly if there is no such cell. -/
theorem AccessesIndirectly.failsIff (access : AccessesIndirectly code m address) :
    FailsIff code m address (m.Lacks address) := by
  obtain ⟨next, top⟩ := access
  obtain ⟨rest, stack⟩ := List.head?_eq_some_iff.1 top
  refine failsIff_of_fetch rest ?_
  rw [step, next]
  simp only [stack]

/-- The instruction that accesses a cell directly names it. -/
theorem AccessesDirectly.exists_mem (access : AccessesDirectly code m address) :
    ∃ inst ∈ code, (inst.opcode = .load ∨ inst.opcode = .store) ∧
      inst.operand = some address := by
  cases access with
  | load next => exact ⟨_, Array.mem_of_getElem? next, .inl rfl, rfl⟩
  | store next _ => exact ⟨_, Array.mem_of_getElem? next, .inr rfl, rfl⟩

end Machine

namespace Program

open Machine (FailsIff AccessesDirectly AccessesIndirectly)

/-- A direct access lacks its cell only below and above what any memory could hold. -/
theorem lacks_iff_of_direct {p : Program} {m : Machine} {address : Word}
    (size : m.memory.size = p.memorySize) (access : AccessesDirectly p.code m address) :
    m.Lacks address ↔ address.val < 0 ∨ (maxMemory : Int) ≤ address.val := by
  have most := p.memorySize_le_maxMemory
  have reached (nonneg : 0 ≤ address.val) (lt : address.val < maxMemory) :
      address.val < p.memorySize := by
    obtain ⟨inst, mem, opcode, operand⟩ := access.exists_mem
    have named : p.Names address.val.toNat := ⟨inst, mem, opcode, address, operand, by omega⟩
    obtain ⟨inst, mem, names⟩ := names_iff.1 named
    have := lt_memorySize mem names (by omega)
    omega
  rw [Machine.Lacks, size]
  omega

/-- Through every run of a program its memory keeps the size that the greatest operand of a load or
a store asks for, within the limits. An address that an instruction names is a fault only if it is
negative or beyond the greatest memory, and one from the stack if it is negative or beyond the
memory of the program. -/
theorem access_fails_iff (p : Program) :
    (256 ≤ p.memorySize ∧ p.memorySize ≤ 1508) ∧
    ((∃ cell, p.Names cell ∧ (∀ other, p.Names other → other ≤ cell) ∧
        p.memorySize = max 256 (min (cell + 1) 1508)) ∨
      (∀ cell, ¬ p.Names cell) ∧ p.memorySize = 256) ∧
    ∀ n, (Machine.run p.code n (.fresh p.memorySize)).HasCells p.memorySize ∧
      ∀ m, Machine.run p.code n (.fresh p.memorySize) = .running m → ∀ address,
        (AccessesDirectly p.code m address →
          FailsIff p.code m address (address.val < 0 ∨ 1508 ≤ address.val)) ∧
        (AccessesIndirectly p.code m address →
          FailsIff p.code m address (address.val < 0 ∨ p.memorySize ≤ address.val)) := by
  refine ⟨⟨p.minMemory_le_memorySize, p.memorySize_le_maxMemory⟩, p.memorySize_cases, fun n => ?_⟩
  have cells := Machine.hasCells_run p.code n (.fresh p.memorySize)
  have start : (Machine.fresh p.memorySize).memory.size = p.memorySize := Array.size_replicate
  rw [start] at cells
  refine ⟨cells, fun m ran address => ?_⟩
  rw [ran] at cells
  have size : m.memory.size = p.memorySize := cells
  refine ⟨fun access => ?_, fun access => ?_⟩
  · have fails := access.failsIff
    rwa [lacks_iff_of_direct size access] at fails
  · have fails := access.failsIff
    rwa [Machine.Lacks, size] at fails

/-- Reads the greatest cell that is named, and then the one behind it. -/
def overreach : Program := ⟨#[⟨.load, some 300⟩, ⟨.push, some 301⟩, ⟨.load, none⟩]⟩

theorem access_fails_overreach :
    (∃ m, Machine.step overreach.code (.fresh 301) = .running m) ∧
    ∃ m, Machine.run overreach.code 2 (.fresh 301) = .running m ∧
      Machine.step overreach.code m = .failed (.addressOutOfRange 2 301 301) := by
  obtain ⟨-, -, runs⟩ := access_fails_iff overreach
  have size : overreach.memorySize = 301 := by decide
  rw [size] at runs
  let loaded : Machine := { Machine.fresh 301 with stack := [0], ip := 1 }
  have value : (Machine.fresh 301).cell? 300 = some 0 := by
    rw [Machine.cell?, if_pos (by decide)]
    exact (Array.getElem?_replicate ..).trans (if_pos (by decide))
  have first : Machine.step overreach.code (.fresh 301) = .running loaded := by
    show (Machine.fresh 301).fetch 300 [] = .running loaded
    rw [Machine.fetch, value]
    rfl
  let pushed : Machine := { Machine.fresh 301 with stack := [301, 0], ip := 2 }
  have cells : pushed.memory.size = 301 := Array.size_replicate
  have ran : Machine.run overreach.code 2 (.fresh 301) = .running pushed :=
    (Machine.run_add (Machine.run_one first) 1).trans (Machine.run_one rfl)
  obtain ⟨direct, -⟩ := (runs 0).2 (.fresh 301) rfl 300
  obtain ⟨-, indirect⟩ := (runs 2).2 pushed ran 301
  have fails := (indirect ⟨rfl, rfl⟩).1.2 (.inr (by decide))
  rw [cells] at fails
  exact ⟨(direct (.load rfl)).2 (by decide), pushed, ran, fails⟩

end Program

end ChessMachine
