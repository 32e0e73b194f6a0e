import ChessMachine.Proofs.Machine.Emission
import ChessMachine.Proofs.Machine.Run
import ChessMachine.Proofs.Machine.Step

/-!
# Compiled code does what structured code means

The instructions of a tree, wherever they stand in a program, take a machine from the first of
them to what the direct meaning says, and they get nowhere exactly if the direct meaning is a loop
without end.

## Main definitions

* `Fits` — where instructions stand in a program.
* `Outcome.Reached` — a machine gets to an outcome.

## Main results

* `Code.reached` — what the direct meaning says is reached.
* `Code.exists_run_of_isFinal` — code in which a machine stops has a meaning.
-/
namespace ChessMachine

open Machine (run step Status)

/-- The instructions stand in the program from `start` on. -/
def Fits (code : Array Instruction) (start : Nat) (insts : List Instruction) : Prop :=
  ∀ i inst, insts[i]? = some inst → code[start + i]? = some inst

namespace Fits

variable {code : Array Instruction} {start : Nat} {inst : Instruction}
  {insts xs ys : List Instruction}

theorem head (h : Fits code start (inst :: insts)) : code[start]? = some inst := h 0 inst rfl

theorem tail (h : Fits code start (inst :: insts)) : Fits code (start + 1) insts := by
  intro i next hi
  rw [Nat.add_assoc, Nat.add_comm 1]
  exact h (i + 1) next hi

theorem left (h : Fits code start (xs ++ ys)) : Fits code start xs := by
  intro i next hi
  refine h i next ?_
  rw [List.getElem?_append_left (List.getElem?_eq_some_iff.1 hi).1, hi]

theorem right (h : Fits code start (xs ++ ys)) : Fits code (start + xs.length) ys := by
  intro i next hi
  rw [Nat.add_assoc]
  refine h (xs.length + i) next ?_
  rw [List.getElem?_append_right (Nat.le_add_right ..), Nat.add_sub_cancel_left, hi]

theorem mem (h : Fits code start insts) (hi : inst ∈ insts) : inst ∈ code := by
  obtain ⟨i, at_i⟩ := List.mem_iff_getElem?.1 hi
  exact Array.mem_of_getElem? (h i inst at_i)

/-- A whole program. -/
theorem self (insts : List Instruction) : Fits insts.toArray 0 insts := by
  intro i inst hi
  simpa using hi

end Fits

namespace Outcome

/-- The machine gets to the outcome: it goes on at `last`, halts or fails. -/
def Reached (code : Array Instruction) (m : Machine) (last : Nat) : Outcome → Prop
  | goesOn d => ∃ n, run code n m = .running (d.machine last)
  | ended d => ∃ n ip, run code n m = .halted (d.machine ip)
  | failed e => ∃ n ip, run code n m = .failed (e.fault ip)

variable {code : Array Instruction} {m m' : Machine} {n mid last : Nat} {o : Outcome}

/-- What is reached later is reached. -/
theorem Reached.after (h : run code n m = .running m') (later : o.Reached code m' last) :
    o.Reached code m last := by
  cases o with
  | goesOn d =>
    obtain ⟨k, hk⟩ := later
    exact ⟨n + k, by rw [Machine.run_add h, hk]⟩
  | ended d =>
    obtain ⟨k, ip, hk⟩ := later
    exact ⟨n + k, ip, by rw [Machine.run_add h, hk]⟩
  | failed e =>
    obtain ⟨k, ip, hk⟩ := later
    exact ⟨n + k, ip, by rw [Machine.run_add h, hk]⟩

theorem reached_of_step {d : Data} {ip : Nat} (h : step code (d.machine ip) = o.status ip) :
    o.Reached code (d.machine ip) (ip + 1) := by
  cases o with
  | goesOn d => exact ⟨1, Machine.run_one h⟩
  | ended d => exact ⟨1, ip, Machine.run_one h⟩
  | failed e => exact ⟨1, ip, Machine.run_one h⟩

/-- What goes on where a jump leads away goes on at its target. -/
theorem Reached.jump (reached : o.Reached code m mid)
    (h : ∀ d : Data, step code (d.machine mid) = .running (d.machine last)) :
    o.Reached code m last := by
  cases o with
  | goesOn d =>
    obtain ⟨n, hn⟩ := reached
    exact ⟨n + 1, by rw [Machine.run_add hn, Machine.run_one (h d)]⟩
  | ended | failed => exact reached

/-- The place at which the first part goes on is where the second one starts. -/
theorem Reached.andThen {first : Option Outcome} {next : Data → Option Outcome}
    (h : andThen first next = some o)
    (reached : ∀ o, first = some o → o.Reached code m mid)
    (continued : ∀ d, next d = some o → o.Reached code (d.machine mid) last) :
    o.Reached code m last := by
  cases first with
  | none => cases h
  | some o₁ =>
    have before := reached o₁ rfl
    cases o₁ with
    | goesOn d =>
      obtain ⟨n, hn⟩ := before
      exact (continued d h).after hn
    | ended d =>
      obtain rfl := Option.some.inj h
      exact before
    | failed e =>
      obtain rfl := Option.some.inj h
      exact before

/-- Where a machine stops, the second part has an outcome if the first one does. -/
theorem exists_andThen {first : Option Outcome} {next : Data → Option Outcome}
    (final : (run code n m).IsFinal) (h : ∃ o, first = some o)
    (reached : ∀ o, first = some o → o.Reached code m mid)
    (continued : ∀ d k, k ≤ n → (run code k (d.machine mid)).IsFinal → ∃ o, next d = some o) :
    ∃ o, andThen first next = some o := by
  obtain ⟨o, rfl⟩ := h
  have before := reached o rfl
  cases o with
  | goesOn d =>
    obtain ⟨j, hj⟩ := before
    obtain ⟨k, rfl, hk⟩ := Machine.isFinal_of_run final hj
    exact continued d k (by omega) hk
  | ended d => exact ⟨.ended d, rfl⟩
  | failed e => exact ⟨.failed e, rfl⟩

end Outcome

namespace Op

variable {code : Array Instruction}

/-- A machine carries out operations one after the other, up to the first mishap. -/
theorem reached_runAll {ops : List Op} {start : Nat} {d : Data}
    (fits : Fits code start (straight ops)) :
    (runAll ops d).Reached code (d.machine start) (start + ops.length) := by
  induction ops generalizing start d with
  | nil => exact ⟨0, rfl⟩
  | cons o rest ih =>
    have first := Outcome.reached_of_step (step_op (d := d) fits.head)
    rw [runAll]
    cases h : o.run d <;> rw [h] at first
    case goesOn d =>
      obtain ⟨n, hn⟩ := first
      have later := ih (d := d) fits.tail
      rw [Nat.add_assoc, Nat.add_comm 1] at later
      exact later.after hn
    case ended | failed => exact first

end Op

namespace Code

/-! ## The parts of a loop -/

theorem runAll_resetOps (counter : Nat) (d : Data) :
    Op.runAll (resetOps counter) d = d.put (.ofNat counter) 0 := by
  simp only [resetOps, Op.runAll, Op.run, Data.push, Data.pop]
  cases d.put (.ofNat counter) 0 <;> rfl

theorem runAll_testOps (counter : Nat) (limit : Limit) (d : Data) :
    Op.runAll (testOps counter limit) d =
      match d.isBelow counter limit with
      | .error e => .failed e
      | .ok below => .goesOn (d.push (Word.ofBool below)) := by
  simp only [testOps, Op.runAll, Op.run, Data.fetch, Data.isBelow]
  cases hc : d.get (.ofNat counter) with
  | error e => rfl
  | ok count =>
    cases limit with
    | literal times => rfl
    | cell address =>
      have same : (d.push count).get (.ofNat address) = d.get (.ofNat address) := rfl
      simp only [Limit.op, same, Limit.value]
      cases d.get (.ofNat address) <;> rfl

theorem runAll_countOps (counter : Nat) (d : Data) :
    Op.runAll (countOps counter) d = d.count (.ofNat counter) := by
  simp only [countOps, Op.runAll, Op.run, Data.fetch, Data.count]
  cases d.get (.ofNat counter) with
  | error e => rfl
  | ok count =>
    simp only [Data.push, Data.arithmetic]
    cases count.add? 1 with
    | none => rfl
    | some next =>
      simp only [Data.pop]
      cases d.put (.ofNat counter) next <;> rfl

/-- The tree that adds one to a cell does so. -/
theorem run_increment (address : Nat) (d : Data) :
    (increment address).run d = some (d.count (.ofNat address)) :=
  congrArg some (runAll_countOps address d)

variable {code : Array Instruction} {counter start exit : Nat} {limit : Limit} {d : Data}

/-- A loop goes on behind itself once its test fails, and into its body if the test holds. -/
theorem reached_test (fits : Fits code start (Op.straight (testOps counter limit)
      ++ [⟨.jif, some (.ofNat exit)⟩]))
    (le : exit ≤ code.size) (small : code.size < 0x8000000000000000) :
    match d.isBelow counter limit with
    | .error e => (Outcome.failed e).Reached code (d.machine start) exit
    | .ok below => ∃ n, Machine.run code (n + 1) (d.machine start)
        = .running (d.machine (if below then start + 4 else exit)) := by
  have tested := Op.reached_runAll (d := d) fits.left
  rw [runAll_testOps] at tested
  cases h : d.isBelow counter limit with
  | error e =>
    rw [h] at tested
    exact tested
  | ok below =>
    rw [h] at tested
    obtain ⟨n, hn⟩ := tested
    refine ⟨n, ?_⟩
    have jif := fits.right.head
    rw [Op.length_straight] at jif
    rw [Machine.run_add hn, Machine.run_one (step_jif jif le small)]
    cases below <;> rfl

/-- Where the parts of a loop stand. -/
structure LoopFits (code : Array Instruction) (start counter : Nat) (limit : Limit)
    (body : Code) : Prop where
  reset : Fits code start (Op.straight (resetOps counter))
  test : Fits code (start + 2) (Op.straight (testOps counter limit)
    ++ [⟨.jif, some (.ofNat (start + 6 + body.size + 5))⟩])
  inner : Fits code (start + 6) (body.instructions (start + 6))
  count : Fits code (start + 6 + body.size) (Op.straight (countOps counter))
  back : code[start + 6 + body.size + 4]? = some ⟨.jmp, some (.ofNat (start + 2))⟩

/-- The parts of an emitted loop stand where its jumps expect them. -/
theorem LoopFits.of_fits {body : Code}
    (fits : Fits code start ((loop counter limit body).instructions start)) :
    LoopFits code start counter limit body := by
  rw [instructions, List.append_cons (Op.straight (testOps counter limit))] at fits
  have behind := fits.right.right
  have closing := behind.right
  rw [length_instructions] at closing
  exact ⟨fits.left, fits.right.left, behind.left, closing.left, closing.right.head⟩

section Loop

variable {body : Code} {o : Outcome} (fits : LoopFits code start counter limit body)
  (le : start + 6 + body.size + 5 ≤ code.size) (small : code.size < 0x8000000000000000)
include fits le small

/-- Each run of the body of a loop leads back to its test. -/
theorem reached_turn
    (reached : ∀ {d o}, body.run d = some o →
      o.Reached code (d.machine (start + 6)) (start + 6 + body.size))
    (h : turn counter body.run d = some o) :
    o.Reached code (d.machine (start + 6)) (start + 2) := by
  refine Outcome.Reached.andThen h (fun _ => reached) fun d hd => ?_
  have counted := Op.reached_runAll (d := d) fits.count
  rw [runAll_countOps, Option.some.inj hd] at counted
  exact counted.jump fun d => step_jmp fits.back (by omega) small

/-- From its test on, the loop gets where the repetition of its turns gets. -/
theorem reached_repeatWhile
    (reached : ∀ {d o}, turn counter body.run d = some o →
      o.Reached code (d.machine (start + 6)) (start + 2))
    (h : d.repeatWhile (·.isBelow counter limit) (turn counter body.run) = some o) :
    o.Reached code (d.machine (start + 2)) (start + 6 + body.size + 5) := by
  refine Data.repeatWhile.partial_correctness (·.isBelow counter limit) (turn counter body.run)
    (fun d o => o.Reached code (d.machine (start + 2)) (start + 6 + body.size + 5))
    (fun again ih d o h => ?_) d o h
  have tested := reached_test (d := d) fits.test le small
  cases ht : d.isBelow counter limit with
  | error e =>
    rw [ht] at tested
    simp only [ht] at h
    obtain rfl := Option.some.inj h
    exact tested
  | ok below =>
    rw [ht] at tested
    obtain ⟨n, hn⟩ := tested
    cases below with
    | false =>
      simp only [ht] at h
      obtain rfl := Option.some.inj h
      exact ⟨n + 1, hn⟩
    | true =>
      simp only [ht] at h
      exact (Outcome.Reached.andThen h (fun _ => reached) fun d => ih d o).after hn

/-- A loop in which a machine stops has an end: the machine takes at least one instruction for
each run of the body. -/
theorem exists_repeatWhile
    (reached : ∀ {d o}, turn counter body.run d = some o →
      o.Reached code (d.machine (start + 6)) (start + 2))
    (inner : ∀ n d, (Machine.run code n (d.machine (start + 6))).IsFinal →
      ∃ o, turn counter body.run d = some o)
    (n : Nat) (d : Data) (final : (Machine.run code n (d.machine (start + 2))).IsFinal) :
    ∃ o, d.repeatWhile (·.isBelow counter limit) (turn counter body.run) = some o := by
  induction n using Nat.strongRecOn generalizing d with
  | ind n ih =>
    have tested := reached_test (d := d) fits.test le small
    rw [Data.repeatWhile]
    cases ht : d.isBelow counter limit with
    | error e => exact ⟨.failed e, rfl⟩
    | ok below =>
      cases below with
      | false => exact ⟨.goesOn d, rfl⟩
      | true =>
        rw [ht] at tested
        obtain ⟨j, hj⟩ := tested
        obtain ⟨k, rfl, hk⟩ := Machine.isFinal_of_run final hj
        exact Outcome.exists_andThen hk (inner k d hk) (fun _ => reached)
          fun d l le final => ih l (by omega) d final

end Loop

/-! ## Trees -/

section Tree

variable {start : Nat} (small : code.size < 0x8000000000000000)
include small

/-- The jump of a guard. -/
theorem reached_guard {body : Code} {target : Nat}
    (jif : code[start]? = some ⟨.jif, some (.ofNat target)⟩) (le : target ≤ code.size)
    {d : Data} {o : Outcome}
    (reached : ∀ {d o}, body.run d = some o →
      o.Reached code (d.machine (start + 1)) target)
    (h : ifNonzero body.run d = some o) : o.Reached code (d.machine start) target := by
  have jumped := step_jif (d := d) jif le small
  obtain ⟨stack, memory, output⟩ := d
  cases stack with
  | nil =>
    obtain rfl := Option.some.inj h
    exact ⟨1, start, Machine.run_one jumped⟩
  | cons value rest =>
    by_cases zero : value.val = 0
    · simp only [ifNonzero, if_pos zero] at h jumped
      obtain rfl := Option.some.inj h
      exact ⟨1, Machine.run_one jumped⟩
    · simp only [ifNonzero, if_neg zero] at h jumped
      exact (reached h).after (Machine.run_one jumped)

/-- Instructions of a tree take a machine to what the tree means. -/
theorem reached (c : Code) (fits : Fits code start (c.instructions start))
    (le : start + c.size ≤ code.size) {d : Data} {o : Outcome} (h : c.run d = some o) :
    o.Reached code (d.machine start) (start + c.size) := by
  induction c generalizing start d o with
  | block ops =>
    obtain rfl := Option.some.inj h
    exact Op.reached_runAll fits
  | seq first second ih₁ ih₂ =>
    have fits₂ := fits.right
    rw [length_instructions] at fits₂
    rw [size, ← Nat.add_assoc] at le ⊢
    exact Outcome.Reached.andThen h (fun _ => ih₁ fits.left (by omega)) fun _ => ih₂ fits₂ le
  | guarded cond body ihc ihb =>
    have jump := fits.right
    rw [length_instructions] at jump
    rw [size, ← Nat.add_assoc, ← Nat.add_assoc] at le ⊢
    exact Outcome.Reached.andThen h (fun _ => ihc fits.left (by omega)) fun d hd =>
      reached_guard small jump.head le (ihb jump.tail le) hd
  | loop counter limit body ih =>
    have parts := LoopFits.of_fits fits
    have le' : start + 6 + body.size + 5 ≤ code.size := by
      rw [size] at le
      omega
    have inner : ∀ {d o}, turn counter body.run d = some o →
        o.Reached code (d.machine (start + 6)) (start + 2) :=
      reached_turn parts le' small (ih parts.inner (by omega))
    have last : start + (loop counter limit body).size = start + 6 + body.size + 5 := by
      rw [size]
      omega
    rw [last]
    refine Outcome.Reached.andThen h (fun o ho => ?_)
      fun _ => reached_repeatWhile parts le' small inner
    have stored := Op.reached_runAll (d := d) parts.reset
    rw [runAll_resetOps, Option.some.inj ho] at stored
    exact stored

/-- If the machine stops, then a guard ends, provided that its body does. -/
theorem exists_ifNonzero {body : Code} {target : Nat}
    (jif : code[start]? = some ⟨.jif, some (.ofNat target)⟩) (le : target ≤ code.size)
    (inner : ∀ n d, (Machine.run code n (d.machine (start + 1))).IsFinal →
      ∃ o, body.run d = some o)
    {n : Nat} {d : Data} (final : (Machine.run code n (d.machine start)).IsFinal) :
    ∃ o, ifNonzero body.run d = some o := by
  have jumped := step_jif (d := d) jif le small
  obtain ⟨stack, memory, output⟩ := d
  cases stack with
  | nil => exact ⟨_, rfl⟩
  | cons value rest =>
    by_cases zero : value.val = 0
    · exact ⟨_, if_pos zero⟩
    · simp only [if_neg zero] at jumped
      obtain ⟨k, -, hk⟩ := Machine.isFinal_of_run final (Machine.run_one jumped)
      obtain ⟨o, ho⟩ := inner k _ hk
      exact ⟨o, (if_neg zero).trans ho⟩

/-- A tree in which a machine stops has an end. -/
theorem exists_run_of_isFinal (c : Code) (fits : Fits code start (c.instructions start))
    (le : start + c.size ≤ code.size) (n : Nat) (d : Data)
    (final : (Machine.run code n (d.machine start)).IsFinal) : ∃ o, c.run d = some o := by
  induction c generalizing start n d with
  | block ops => exact ⟨_, rfl⟩
  | seq first second ih₁ ih₂ =>
    have fits₂ := fits.right
    rw [length_instructions] at fits₂
    rw [size, ← Nat.add_assoc] at le
    exact Outcome.exists_andThen final (ih₁ fits.left (by omega) n d final)
      (fun _ => reached small first fits.left (by omega)) fun d k _ => ih₂ fits₂ le k d
  | guarded cond body ihc ihb =>
    have jump := fits.right
    rw [length_instructions] at jump
    rw [size, ← Nat.add_assoc, ← Nat.add_assoc] at le
    exact Outcome.exists_andThen final (ihc fits.left (by omega) n d final)
      (fun _ => reached small cond fits.left (by omega)) fun d k _ final =>
        exists_ifNonzero small jump.head le (ihb jump.tail le) final
  | loop counter limit body ih =>
    have parts := LoopFits.of_fits fits
    have le' : start + 6 + body.size + 5 ≤ code.size := by
      rw [size] at le
      omega
    have inner : ∀ {d o}, body.run d = some o →
        o.Reached code (d.machine (start + 6)) (start + 6 + body.size) :=
      reached small body parts.inner (by omega)
    refine Outcome.exists_andThen final ⟨_, rfl⟩ (fun o ho => ?_) fun d k _ final =>
      exists_repeatWhile parts le' small (reached_turn parts le' small inner) ?_ k d final
    · have stored := Op.reached_runAll (d := d) parts.reset
      rw [runAll_resetOps, Option.some.inj ho] at stored
      exact stored
    · exact fun n d final => Outcome.exists_andThen final (ih parts.inner (by omega) n d final)
        (fun _ => inner) fun _ _ _ _ => ⟨_, rfl⟩

end Tree

end Code

end ChessMachine
