import ChessMachine.Proofs.Machine.Simulation

/-!
# Programs of structured code

A compiled tree prints what the tree means to print, fails as the tree fails, and runs forever
exactly if the tree does. It never meets a jump without a target or an instruction without its
operand.

## Main definitions

* `Outcome.Stops` — how an execution stops that has an outcome.

## Main results

* `Code.stops_finish` — the program of a tree stops as its meaning says.
* `Code.execute_eq_ok` — what the program of a tree prints.
* `Code.execute_iff_run` — all answers of the program of a tree, one by one.
-/
namespace ChessMachine

namespace Mishap

@[simp] theorem fault_inj {ip jp : Nat} {e f : Mishap} :
    e.fault ip = f.fault jp ↔ ip = jp ∧ e = f := by
  cases e <;> cases f <;> simp [fault]

@[simp] theorem unfinished_ne_fault (ip : Nat) (e : Mishap) : .unfinished ≠ e.fault ip := by
  cases e <;> exact nofun

@[simp] theorem fault_ne_invalidJump (ip jp : Nat) (e : Mishap) (target : Word) (length : Nat) :
    e.fault ip ≠ .invalidJump jp target length := by
  cases e <;> exact nofun

@[simp] theorem fault_ne_missingOperand (ip jp : Nat) (e : Mishap) (opcode : Opcode) :
    e.fault ip ≠ .missingOperand jp opcode := by
  cases e <;> exact nofun

end Mishap

/-- An execution stops with the data of an outcome or with its mishap, or not at all. -/
def Outcome.Stops : Option Outcome → Option Machine.Status → Prop
  | none, s => s = none
  | some (goesOn d), s | some (ended d), s => ∃ ip, s = some (.halted (d.machine ip))
  | some (failed e), s => ∃ ip, s = some (.failed (e.fault ip))

namespace Code

variable {c : Code} {p : Program}

theorem size_of_compile (h : c.compile = .ok p) : p.code.size = c.size := by
  rw [compile_eq] at h
  cases h
  simp

/-- A compiled program consists of the instructions of its tree. -/
theorem fits_of_compile (h : c.compile = .ok p) : Fits p.code 0 (c.instructions 0) := by
  rw [compile_eq] at h
  cases h
  exact Fits.self _

/-- The program of a tree stops as the meaning of the tree says. -/
theorem stops_finish (small : c.size < 0x8000000000000000) (h : c.compile = .ok p) :
    Outcome.Stops (c.run (.fresh p.memorySize))
      (Machine.finish p.code (.fresh p.memorySize)) := by
  have fits := fits_of_compile h
  have size := size_of_compile h
  have fresh : Machine.fresh p.memorySize = (Data.fresh p.memorySize).machine 0 := rfl
  rw [fresh]
  cases hr : c.run (.fresh p.memorySize) with
  | none =>
    refine Option.eq_none_iff_forall_ne_some.2 fun s hs => ?_
    obtain ⟨final, n, hn⟩ := Machine.exists_run_of_finish hs
    obtain ⟨o, ho⟩ := exists_run_of_isFinal (size ▸ small) c fits (by omega) n
      (.fresh p.memorySize) (hn ▸ final)
    cases hr.symm.trans ho
  | some o =>
    have reached := reached (size ▸ small) c fits (by omega) hr
    cases o with
    | goesOn d =>
      obtain ⟨n, hn⟩ := reached
      have past :
          Machine.step p.code (d.machine (0 + c.size)) = .halted (d.machine (0 + c.size)) :=
        Machine.step_of_size_le (by simp [Data.machine, size])
      exact ⟨_, Machine.finish_of_run (by rw [Machine.run_add hn, Machine.run_one past]) trivial⟩
    | ended d =>
      obtain ⟨n, ip, hn⟩ := reached
      exact ⟨ip, Machine.finish_of_run hn trivial⟩
    | failed e =>
      obtain ⟨n, ip, hn⟩ := reached
      exact ⟨ip, Machine.finish_of_run hn trivial⟩

/-- A tree that goes on or halts makes a program that prints. -/
theorem execute_eq_ok {o : Outcome} {d : Data} (small : c.size < 0x8000000000000000)
    (h : c.compile = .ok p) (run : c.run (.fresh p.memorySize) = some o) (data : o.data? = some d) :
    p.execute = .ok d.output.toList := by
  have stops := stops_finish small h
  rw [run] at stops
  cases o with
  | goesOn d' | ended d' =>
    obtain rfl := Option.some.inj data
    obtain ⟨ip, hip⟩ := stops
    rw [Program.execute, hip]
    rfl
  | failed e => cases data

/-- A mishap of the tree is a fault of the program, at one of its instructions. -/
theorem execute_eq_error {e : Mishap} (small : c.size < 0x8000000000000000)
    (h : c.compile = .ok p) (run : c.run (.fresh p.memorySize) = some (.failed e)) :
    ∃ ip, p.execute = .error (e.fault ip) := by
  have stops := stops_finish small h
  rw [run] at stops
  obtain ⟨ip, hip⟩ := stops
  exact ⟨ip, by rw [Program.execute, hip]⟩

/-- If the tree never ends, then neither does the program. -/
theorem execute_eq_unfinished (small : c.size < 0x8000000000000000) (h : c.compile = .ok p)
    (run : c.run (.fresh p.memorySize) = none) : p.execute = .error .unfinished := by
  have stops := stops_finish small h
  rw [run] at stops
  rw [Program.execute, show Machine.finish p.code _ = none from stops]

/-- The program stops after some number of steps exactly if the tree ends. -/
theorem exists_isFinal_iff (small : c.size < 0x8000000000000000) (h : c.compile = .ok p) :
    (∃ n, (Machine.run p.code n (.fresh p.memorySize)).IsFinal)
      ↔ ∃ o, c.run (.fresh p.memorySize) = some o := by
  have stops := stops_finish small h
  constructor
  · rintro ⟨n, final⟩
    rw [Machine.finish_of_run rfl final] at stops
    cases hr : c.run (.fresh p.memorySize) with
    | none =>
      rw [hr] at stops
      cases stops
    | some o => exact ⟨o, rfl⟩
  · rintro ⟨o, ho⟩
    have stopped : ∃ s, Machine.finish p.code (.fresh p.memorySize) = some s := by
      rw [ho] at stops
      cases o <;> obtain ⟨ip, hip⟩ := stops <;> exact ⟨_, hip⟩
    obtain ⟨s, hs⟩ := stopped
    obtain ⟨final, n, rfl⟩ := Machine.exists_run_of_finish hs
    exact ⟨n, final⟩

/-- Structured code compiles. Its program stops exactly if the code has an end, and then prints
the same or fails alike. Jumps with bad targets and missing operands do not occur. The bound is
that of addresses: no program of so many instructions fits into a memory. -/
theorem execute_iff_run (c : Code) (small : c.size < 0x8000000000000000) :
    ∃ p, c.compile = .ok p ∧
      ((∃ n, (Machine.run p.code n (.fresh p.memorySize)).IsFinal)
        ↔ ∃ o, c.run (.fresh p.memorySize) = some o) ∧
      (∀ output, p.execute = .ok output ↔ ∃ o d, c.run (.fresh p.memorySize) = some o ∧
        o.data? = some d ∧ d.output.toList = output) ∧
      (∀ e, (∃ ip, p.execute = .error (e.fault ip))
        ↔ c.run (.fresh p.memorySize) = some (.failed e)) ∧
      (∀ ip target length, p.execute ≠ .error (.invalidJump ip target length)) ∧
      ∀ ip opcode, p.execute ≠ .error (.missingOperand ip opcode) := by
  have h := compile_eq c
  refine ⟨_, h, exists_isFinal_iff small h, ?_⟩
  generalize (⟨(c.instructions 0).toArray⟩ : Program) = p at h
  cases hr : c.run (.fresh p.memorySize) with
  | none => simp [execute_eq_unfinished small h hr]
  | some o =>
    cases o with
    | goesOn d | ended d => simp [execute_eq_ok small h hr rfl, Outcome.data?]
    | failed e =>
      obtain ⟨ip, hip⟩ := execute_eq_error small h hr
      simp [hip, Outcome.data?]

/-- Prints the counter of a loop and, in the second run, halts in the middle of it. -/
def haltsInLoop : Code :=
  loop 0 (.literal 5) (block [.load 0, .print]
    ++ guarded (block [.load 0, .push 1, .eq]) (block [.halt]))

theorem run_haltsInLoop (n : Nat) :
    ∃ d, haltsInLoop.run (.fresh (n + 1)) = some (.ended d) ∧ d.output.toList = ["0", "1"] := by
  refine ⟨⟨[], ⟨1 :: List.replicate n 0⟩, #["0", "1"]⟩, ?_, rfl⟩
  show Data.repeatWhile _ _ ⟨[], ⟨0 :: List.replicate n 0⟩, #[]⟩ = _
  rw [Data.repeatWhile]
  show Data.repeatWhile _ _ ⟨[], ⟨1 :: List.replicate n 0⟩, #["0"]⟩ = _
  rw [Data.repeatWhile]
  rfl

theorem execute_haltsInLoop :
    ∃ p, haltsInLoop.compile = .ok p ∧ p.execute = .ok ["0", "1"] := by
  obtain ⟨p, h, -, prints, -⟩ := execute_iff_run haltsInLoop (by decide)
  have cells : 0 < p.memorySize := Nat.lt_of_lt_of_le (by decide) p.minMemory_le_memorySize
  obtain ⟨n, hn⟩ := Nat.exists_eq_succ_of_ne_zero (Nat.ne_of_gt cells)
  rw [hn] at prints
  obtain ⟨d, run, output⟩ := run_haltsInLoop n
  exact ⟨p, h, (prints _).2 ⟨_, d, run, rfl, output⟩⟩

end Code

end ChessMachine
