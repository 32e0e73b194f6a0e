import ChessMachine.Machine.Execution

/-!
# Counted runs

An execution is followed instruction by instruction. It stops somewhere exactly if some number of
instructions leads there, and what happens after any number of them decides the rest.

## Main definitions

* `Machine.run` — executes at most a given number of instructions.
* `Machine.Status.IsFinal` — the machine has stopped.

## Main results

* `Machine.run_add` — a run goes on from where its beginning leads.
* `Machine.finish_of_run`, `Machine.exists_run_of_finish` — an execution stops where a counted run
  does.
-/
namespace ChessMachine

namespace Machine

/-- Executes at most `n` instructions. -/
def run (code : Array Instruction) : (n : Nat) → Machine → Status
  | 0, m => .running m
  | n + 1, m =>
    match step code m with
    | .running m => run code n m
    | status => status

/-- The machine has stopped. -/
def Status.IsFinal : Status → Prop
  | running _ => False
  | halted _ | failed _ => True

theorem Status.not_isFinal_running (m : Machine) : ¬ (running m).IsFinal := id

variable {code : Array Instruction} {m m' : Machine} {s : Status} {j n : Nat}

/-- Past the last instruction the machine stops. -/
theorem step_of_size_le (le : code.size ≤ m.ip) : step code m = .halted m := by
  rw [step, Array.getElem?_eq_none le]

theorem run_one (h : step code m = s) : run code 1 m = s := by
  rw [run, h]
  cases s <;> rfl

/-- What follows the first `j` instructions decides the rest. -/
theorem run_add (h : run code j m = .running m') (n : Nat) :
    run code (j + n) m = run code n m' := by
  induction j generalizing m with
  | zero =>
    cases h
    rw [Nat.zero_add]
  | succ j ih =>
    rw [Nat.succ_add, run]
    rw [run] at h
    cases hs : step code m with
    | running next =>
      rw [hs] at h
      exact ih h
    | halted | failed => simp [hs] at h

/-- A machine that stops within `n` instructions goes on from where it is after `j` of them. -/
theorem isFinal_of_run (final : (run code n m).IsFinal) (h : run code j m = .running m') :
    ∃ k, n = j + k ∧ (run code k m').IsFinal := by
  induction j generalizing m n with
  | zero =>
    cases h
    exact ⟨n, by omega, final⟩
  | succ j ih =>
    cases n with
    | zero => exact absurd final (Status.not_isFinal_running m)
    | succ n =>
      rw [run] at h final
      cases hs : step code m with
      | running next =>
        rw [hs] at h final
        obtain ⟨k, rfl, hk⟩ := ih final h
        exact ⟨k, by omega, hk⟩
      | halted | failed => simp [hs] at h

/-- An execution stops where some number of instructions leads to a stop. -/
theorem finish_of_run (h : run code n m = s) (final : s.IsFinal) : finish code m = some s := by
  induction n generalizing m with
  | zero =>
    cases h
    exact absurd final (Status.not_isFinal_running m)
  | succ n ih =>
    rw [run] at h
    rw [finish]
    cases hs : step code m with
    | running next =>
      rw [hs] at h
      exact ih h
    | halted | failed => simpa [hs] using h

/-- Only there does an execution stop. -/
theorem exists_run_of_finish (h : finish code m = some s) :
    s.IsFinal ∧ ∃ n, run code n m = s := by
  refine finish.partial_correctness code (fun m s => s.IsFinal ∧ ∃ n, run code n m = s)
    (fun finish ih m s h => ?_) m s h
  cases hs : step code m with
  | running next =>
    rw [hs] at h
    obtain ⟨final, n, hn⟩ := ih next s h
    exact ⟨final, n + 1, by rw [run, hs, ← hn]⟩
  | halted | failed =>
    rw [hs] at h
    obtain rfl := Option.some.inj h
    exact ⟨trivial, 1, run_one hs⟩

end Machine

end ChessMachine
