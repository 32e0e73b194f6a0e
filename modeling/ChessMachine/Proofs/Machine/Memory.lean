import ChessMachine.Machine.Code

/-!
# The memory of a program

A program executes with a cell for every address that it names directly, up to the limit.

## Main definitions

* `Program.Names` — an instruction names a cell.

## Main results

* `Program.le_highestCell` — no cell named directly is beyond the highest one.
* `Program.lt_memorySize`, `Program.memorySize_eq_maxMemory` — which cells there are.
* `Program.memorySize_cases` — the size of the memory, by the instructions.
-/
namespace ChessMachine

theorem Op.directCell?_store {cell : Nat} (small : cell < 0x8000000000000000) :
    (Op.store cell).instruction.directCell? = some cell :=
  Word.toNat?_eq_some_iff.2 (Word.val_ofNat small)

namespace Program

/-- A running maximum is at least the start and every value. -/
theorem le_foldl_max (f : Instruction → Nat) (insts : List Instruction) (start : Nat) :
    start ≤ insts.foldl (fun highest inst => max highest (f inst)) start ∧
      ∀ inst ∈ insts, f inst ≤ insts.foldl (fun highest inst => max highest (f inst)) start := by
  induction insts generalizing start with
  | nil => simp
  | cons inst rest ih =>
    obtain ⟨first, later⟩ := ih (max start (f inst))
    rw [List.foldl_cons]
    refine ⟨by omega, List.forall_mem_cons.2 ⟨by omega, later⟩⟩

/-- A running maximum is the start or one of the values. -/
theorem foldl_max_eq (f : Instruction → Nat) (insts : List Instruction) (start : Nat) :
    insts.foldl (fun highest inst => max highest (f inst)) start = start ∨
      ∃ inst ∈ insts, insts.foldl (fun highest inst => max highest (f inst)) start = f inst := by
  induction insts generalizing start with
  | nil => exact .inl rfl
  | cons inst rest ih =>
    rw [List.foldl_cons]
    rcases ih (max start (f inst)) with same | ⟨later, mem, same⟩
    · rcases Nat.le_total (f inst) start with le | le
      · exact .inl (same.trans (Nat.max_eq_left le))
      · exact .inr ⟨inst, List.mem_cons_self, same.trans (Nat.max_eq_right le)⟩
    · exact .inr ⟨later, List.mem_cons_of_mem _ mem, same⟩

variable {p : Program} {inst : Instruction} {cell : Nat}

/-- No instruction names a cell above the highest one. -/
theorem le_highestCell (mem : inst ∈ p.code) (names : inst.directCell? = some cell) :
    cell ≤ p.highestCell := by
  have le := (le_foldl_max (fun inst => inst.directCell?.getD 0) p.code.toList 0).2 inst
    (Array.mem_toList_iff.2 mem)
  rw [names, Array.foldl_toList] at le
  exact le

/-- Within the limit, a cell that is named directly is there. -/
theorem lt_memorySize (mem : inst ∈ p.code) (names : inst.directCell? = some cell)
    (lt : cell < maxMemory) : cell < p.memorySize := by
  have := le_highestCell mem names
  rw [memorySize]
  omega

/-- A program that names the last possible cell, or one beyond it, has the largest memory. -/
theorem memorySize_eq_maxMemory (mem : inst ∈ p.code) (names : inst.directCell? = some cell)
    (le : maxMemory ≤ cell + 1) : p.memorySize = maxMemory := by
  have := le_highestCell mem names
  have : minMemory ≤ maxMemory := by decide
  rw [memorySize]
  omega

/-- A load or a store of the program has this cell as its operand. -/
def Names (p : Program) (cell : Nat) : Prop :=
  ∃ inst ∈ p.code, (inst.opcode = .load ∨ inst.opcode = .store) ∧
    ∃ address, inst.operand = some address ∧ address.val = cell

theorem names_iff : p.Names cell ↔ ∃ inst ∈ p.code, inst.directCell? = some cell := by
  refine exists_congr fun inst => and_congr_right fun _ => ?_
  obtain ⟨opcode, operand⟩ := inst
  cases opcode <;> simp [Instruction.directCell?, Option.bind_eq_some_iff, Word.toNat?_eq_some_iff]

/-- The memory reaches up to the greatest cell that is named, within the limits. -/
theorem memorySize_cases (p : Program) :
    (∃ cell, p.Names cell ∧ (∀ other, p.Names other → other ≤ cell) ∧
      p.memorySize = max minMemory (min (cell + 1) maxMemory)) ∨
    (∀ cell, ¬ p.Names cell) ∧ p.memorySize = minMemory := by
  have bound (other : Nat) (names : p.Names other) : other ≤ p.highestCell := by
    obtain ⟨inst, mem, names⟩ := names_iff.1 names
    exact le_highestCell mem names
  by_cases named : p.Names p.highestCell
  · exact .inl ⟨_, named, bound, rfl⟩
  · have zero : p.highestCell = 0 := by
      have attained := foldl_max_eq (fun inst => inst.directCell?.getD 0) p.code.toList 0
      rw [Array.foldl_toList] at attained
      rcases attained with zero | ⟨inst, mem, same⟩
      · exact zero
      · cases names : inst.directCell? with
        | none => exact same.trans (by rw [names, Option.getD_none])
        | some cell =>
          obtain rfl : p.highestCell = cell := same.trans (by rw [names, Option.getD_some])
          exact absurd (names_iff.2 ⟨inst, Array.mem_toList_iff.1 mem, names⟩) named
    refine .inr ⟨fun cell names => ?_, by rw [memorySize, zero]; decide⟩
    obtain rfl : cell = p.highestCell := by
      have := bound cell names
      omega
    exact named names

end Program

end ChessMachine
