import ChessMachine.Proofs.Machine.Simulation

/-!
# Loops that count to a number

A loop whose body leaves the counter alone runs its body as often as its limit says. Its course
is described by a scene for each value of the counter.

## Main results

* `Word.add?_ofNat` — sums of natural numbers.
* `Data.count_ofNat` — a cell is counted up.
* `Code.run_guarded_increment` — a guarded increment counts what the guard finds.
* `Code.run_loop` — a loop goes through its scenes.
-/
namespace ChessMachine

theorem Word.add?_ofNat {m n : Nat} (small : m + n < 0x8000000000000000) :
    (Word.ofNat m).add? (Word.ofNat n) = some (Word.ofNat (m + n)) := by
  refine Bounded.ofInt?_eq_some_iff.2 ?_
  rw [val_ofNat small, val_ofNat (by omega), val_ofNat (by omega), Int.natCast_add]

namespace Data

variable {d : Data} {cell n : Nat}

/-- A cell that holds a number is counted up. -/
theorem count_ofNat (bound : cell < 0x8000000000000000) (small : n + 1 < 0x8000000000000000)
    (h : d.memory[cell]? = some (.ofNat n)) :
    d.count (.ofNat cell)
      = .goesOn { d with memory := d.memory.setIfInBounds cell (.ofNat (n + 1)) } := by
  have there : cell < d.memory.size := (Array.getElem?_eq_some_iff.1 h).1
  have next : (Word.ofNat n).add? 1 = some (Word.ofNat (n + 1)) := Word.add?_ofNat small
  rw [count, get_ofNat bound h]
  simp only [next]
  exact put_ofNat _ bound there

/-- The counter is compared with a limit that is a number. -/
theorem isBelow_literal {counter times : Nat} (h : d.get (.ofNat counter) = .ok (.ofNat n))
    (le : n ≤ times) (small : times < 0x8000000000000000) :
    d.isBelow counter (.literal (.ofNat times)) = .ok (decide (n < times)) := by
  have below : (Word.ofNat n).val < (Word.ofNat times).val ↔ n < times := by
    rw [Word.val_ofNat small, Word.val_ofNat (by omega), Int.ofNat_lt]
  simp only [isBelow, h, Limit.value, bind, Except.bind, below]
  rfl

end Data

namespace Code

variable {counter times : Nat} {body : Code} {d : Data}

/-- A guard in front of the increment of a cell adds what its test finds. -/
theorem run_guarded_increment {cond : Code} (memory : Array Word) {output : Array String}
    (cell : Nat) {n : Nat} {test : Bool} (bound : cell < 0x8000000000000000)
    (there : cell < memory.size) (small : n + 1 < 0x8000000000000000)
    (run : cond.run ⟨[], memory.setIfInBounds cell (.ofNat n), output⟩
      = some (.goesOn ⟨[Word.ofBool test], memory.setIfInBounds cell (.ofNat n), output⟩)) :
    (guarded cond (increment cell)).run ⟨[], memory.setIfInBounds cell (.ofNat n), output⟩
      = some (.goesOn ⟨[], memory.setIfInBounds cell (.ofNat (n + test.toNat)), output⟩) := by
  show Outcome.andThen (cond.run _) (ifNonzero (increment cell).run) = _
  rw [run]
  cases test with
  | false => rfl
  | true =>
    have value : (memory.setIfInBounds cell (.ofNat n))[cell]? = some (Word.ofNat n) :=
      Array.getElem?_setIfInBounds_self_of_lt there
    have counted := Data.count_ofNat (d := ⟨[], memory.setIfInBounds cell (.ofNat n), output⟩)
      bound small value
    show (increment cell).run _ = _
    rw [run_increment, counted, Array.setIfInBounds_setIfInBounds]
    rfl

/-- A turn of a loop whose body leaves the counter as it was. -/
theorem turn_eq_goesOn {d' : Data} {n : Nat} (run : body.run d = some (.goesOn d'))
    (bound : counter < 0x8000000000000000) (small : n + 1 < 0x8000000000000000)
    (h : d'.memory[counter]? = some (.ofNat n)) :
    turn counter body.run d
      = some (.goesOn { d' with memory := d'.memory.setIfInBounds counter (.ofNat (n + 1)) }) := by
  rw [turn, run]
  exact congrArg some (Data.count_ofNat bound small h)

/-- A loop goes through its scenes, one for each value of the counter. -/
theorem run_loop (scene : Nat → Data) (small : times < 0x8000000000000000)
    (opened : d.put (.ofNat counter) 0 = .goesOn (scene 0))
    (counts : ∀ i ≤ times, (scene i).get (.ofNat counter) = .ok (.ofNat i))
    (turns : ∀ i < times, turn counter body.run (scene i) = some (.goesOn (scene (i + 1)))) :
    (loop counter (.literal (.ofNat times)) body).run d = some (.goesOn (scene times)) := by
  -- by induction on the number of turns that are left
  have rest (left i : Nat) (h : i + left = times) :
      (scene i).repeatWhile (·.isBelow counter (.literal (.ofNat times))) (turn counter body.run)
        = some (.goesOn (scene times)) := by
    induction left generalizing i with
    | zero =>
      have test := Data.isBelow_literal (counts i (by omega)) (by omega) small
      rw [Data.repeatWhile, test, decide_eq_false (by omega)]
      simp only [← h, Nat.add_zero]
    | succ left ih =>
      have test := Data.isBelow_literal (counts i (by omega)) (by omega) small
      rw [Data.repeatWhile, test, decide_eq_true (by omega)]
      simp only [turns i (by omega)]
      exact ih (i + 1) (by omega)
  rw [run, opened]
  exact rest times 0 (Nat.zero_add times)

end Code

end ChessMachine
