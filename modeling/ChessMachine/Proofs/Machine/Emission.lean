import ChessMachine.Machine.Code

/-!
# The instructions of structured code

What a tree of code emits depends on the place where it starts and on nothing else: the builder
keeps what it already had, and every jump has its target in the end.

## Main definitions

* `Code.size`, `Code.instructions` — the instructions of a tree that starts at a given place.

## Main results

* `Code.emit_eq` — emitting a tree appends these instructions.
* `Code.compile_eq` — so every tree compiles.
-/
namespace ChessMachine

def Limit.op : Limit → Op
  | literal times => .push times
  | cell address => .load address

def Op.straight (ops : List Op) : List Instruction := ops.map Op.instruction

@[simp] theorem Op.length_straight (ops : List Op) : (straight ops).length = ops.length :=
  List.length_map ..

theorem Op.straight_append (xs ys : List Op) : straight (xs ++ ys) = straight xs ++ straight ys :=
  List.map_append

namespace Code

def size : Code → Nat
  | block ops => ops.length
  | seq first second => first.size + second.size
  | guarded cond body => cond.size + 1 + body.size
  | loop _ _ body => 6 + body.size + 5

/-! ## The parts of a loop -/

def resetOps (counter : Nat) : List Op := [.push 0, .store counter]

def testOps (counter : Nat) (limit : Limit) : List Op := [.load counter, limit.op, .lt]

def countOps (cell : Nat) : List Op := [.load cell, .push 1, .add, .store cell]

/-! ## Instructions -/

/-- The instructions of a tree whose first one stands at `start`. -/
def instructions : Code → (start : Nat) → List Instruction
  | block ops, _ => Op.straight ops
  | seq first second, start =>
    first.instructions start ++ second.instructions (start + first.size)
  | guarded cond body, start =>
    cond.instructions start
      ++ ⟨.jif, some (.ofNat (start + cond.size + 1 + body.size))⟩
      :: body.instructions (start + cond.size + 1)
  | loop counter limit body, start =>
    Op.straight (resetOps counter)
      ++ (Op.straight (testOps counter limit)
      ++ ⟨.jif, some (.ofNat (start + 6 + body.size + 5))⟩
      :: (body.instructions (start + 6)
      ++ (Op.straight (countOps counter)
      ++ [⟨.jmp, some (.ofNat (start + 2))⟩])))

@[simp] theorem length_instructions (c : Code) (start : Nat) :
    (c.instructions start).length = c.size := by
  induction c generalizing start with
  | block ops => simp [instructions, size]
  | seq first second ih₁ ih₂ => simp [instructions, size, ih₁, ih₂]
  | guarded cond body ihc ihb =>
    simp only [instructions, size, List.length_append, List.length_cons, ihc, ihb]
    omega
  | loop counter limit body ih =>
    simp only [instructions, size, resetOps, testOps, countOps, List.length_append,
      List.length_cons, List.length_nil, Op.length_straight, ih]
    omega

@[simp] theorem size_append (c d : Code) : (c ++ d).size = c.size + d.size := rfl

theorem size_all_le {cs : List Code} {n : Nat} (h : ∀ c ∈ cs, c.size ≤ n) :
    (all cs).size ≤ cs.length * n := by
  induction cs with
  | nil => exact Nat.zero_le _
  | cons c rest ih =>
    have first := h c List.mem_cons_self
    have later := ih fun d hd => h d (List.mem_cons_of_mem c hd)
    rw [all, size_append, List.length_cons, Nat.succ_mul]
    omega

end Code

namespace Builder

/-- Every pending jump has been emitted. -/
def Settled (b : Builder) : Prop := ∀ i ∈ b.pending, i < b.here

def append (b : Builder) (insts : List Instruction) : Builder :=
  { b with code := b.code ++ insts.toArray }

variable {b : Builder}

@[simp] theorem append_append (xs ys : List Instruction) :
    (b.append xs).append ys = b.append (xs ++ ys) := by
  simp [append, Array.append_assoc]

@[simp] theorem here_append (insts : List Instruction) :
    (b.append insts).here = b.here + insts.length := by
  simp [append, here]

theorem Settled.append (h : b.Settled) (insts : List Instruction) :
    (b.append insts).Settled := by
  intro i hi
  have := h i hi
  rw [here_append]
  omega

theorem emit_eq_append (inst : Instruction) : b.emit inst = b.append [inst] := by
  simp [emit, Builder.append]

/-- Operations are emitted as the instructions that they are, in order. -/
theorem emitAll_eq_append (ops : List Op) :
    ops.foldl (fun b o => b.emit o.instruction) b = b.append (Op.straight ops) := by
  induction ops generalizing b with
  | nil => simp [Op.straight, Builder.append]
  | cons o rest ih =>
    rw [List.foldl_cons, ih, emit_eq_append, append_append]
    rfl

theorem settled_forward (h : b.Settled) (kind : Jump) : (b.forward kind).1.Settled := by
  intro i hi
  simp only [forward, List.mem_append, List.mem_singleton] at hi
  simp only [forward, here, Array.size_push]
  rcases hi with hi | rfl
  · exact Nat.lt_succ_of_lt (h i hi)
  · exact Nat.lt_succ_self _

@[simp] theorem here_forward (kind : Jump) : (b.forward kind).1.here = b.here + 1 := by
  simp [forward, here]

/-- A jump whose target is set once the instructions behind it are there. -/
theorem patchTo_forward (h : b.Settled) (kind : Jump) (insts : List Instruction) (target : Nat) :
    ((b.forward kind).1.append insts).patchTo (b.forward kind).2 target
      = b.append (⟨kind.opcode, some (.ofNat target)⟩ :: insts) := by
  have pending : b.pending.filter (· != b.here) = b.pending :=
    List.filter_eq_self.2 fun i hi => bne_iff_ne.2 (Nat.ne_of_lt (h i hi))
  have code : ((b.code.push ⟨kind.opcode, some 0⟩) ++ insts.toArray).modify b.here
      (fun inst => { inst with operand := some (.ofNat target) })
        = b.code ++ (⟨kind.opcode, some (.ofNat target)⟩ :: insts).toArray := by
    refine Array.ext (by simp) fun i hi hi' => ?_
    rw [Array.getElem_modify]
    by_cases hb : b.code.size = i
    · subst hb
      simp [here]
    · simp only [here, hb, Array.getElem_append, Array.getElem_push, Array.size_push]
      grind
  simp only [forward, patchTo, append, List.filter_append, pending, code]
  simp

/-- A loop up to its body. -/
theorem openLoop_eq (counter : Nat) (limit : Limit) :
    b.openLoop counter limit =
      let opened := b.append (Op.straight (Code.resetOps counter ++ Code.testOps counter limit))
      ((opened.forward .ifZero).1, ⟨counter, b.here + 2, (opened.forward .ifZero).2⟩) := by
  have header : ((b.push 0).store counter).here = b.here + 2 := by
    simp [push, store, emit, here]
  have code : (((((b.push 0).store counter).load counter).loadLimit limit).emit ⟨.lt, none⟩)
      = b.append (Op.straight (Code.resetOps counter ++ Code.testOps counter limit)) := by
    rw [← emitAll_eq_append]
    cases limit <;> rfl
  simp only [openLoop, header, code]

/-- A loop from its body on. -/
theorem closeLoop_eq (loop : OpenLoop) :
    b.closeLoop loop = (b.append (Op.straight (Code.countOps loop.counter)
      ++ [⟨.jmp, some (.ofNat loop.header)⟩])).patchHere loop.exit := by
  have code : b.increment loop.counter = b.append (Op.straight (Code.countOps loop.counter)) := by
    rw [← emitAll_eq_append]
    rfl
  rw [closeLoop, code, jump, emit_eq_append, append_append]
  rfl

end Builder

namespace Code

open Builder (Settled)

/-- Emitting a tree appends its instructions, with every jump complete. -/
theorem emit_eq (c : Code) {b : Builder} (h : b.Settled) :
    c.emit b = b.append (c.instructions b.here) := by
  induction c generalizing b with
  | block ops => exact Builder.emitAll_eq_append ops
  | seq first second ih₁ ih₂ =>
    rw [emit, ih₁ h, ih₂ (h.append _), Builder.here_append, length_instructions,
      Builder.append_append, instructions]
  | guarded cond body ihc ihb =>
    have settled := h.append (cond.instructions b.here)
    show (body.emit ((cond.emit b).forward .ifZero).1).patchHere ((cond.emit b).forward .ifZero).2
      = b.append _
    rw [ihc h, ihb (Builder.settled_forward settled _), Builder.patchHere,
      Builder.patchTo_forward settled, Builder.append_append, instructions]
    simp only [Builder.here_append, Builder.here_forward, length_instructions]
    rfl
  | loop counter limit body ih =>
    have settled := h.append (Op.straight (resetOps counter ++ testOps counter limit))
    have opened : b.here + (resetOps counter ++ testOps counter limit).length + 1 = b.here + 6 :=
      rfl
    show (body.emit (b.openLoop counter limit).1).closeLoop (b.openLoop counter limit).2
      = b.append _
    simp only [Builder.openLoop_eq]
    rw [ih (Builder.settled_forward settled _), Builder.closeLoop_eq, Builder.append_append,
      Builder.patchHere, Builder.patchTo_forward settled, Builder.append_append, instructions]
    simp only [Builder.here_append, Builder.here_forward, length_instructions, List.length_append,
      Op.length_straight] at opened ⊢
    rw [opened, Op.straight_append, List.append_assoc]
    rfl

/-- Every tree compiles, to its instructions. -/
theorem compile_eq (c : Code) : c.compile = .ok ⟨(c.instructions 0).toArray⟩ := by
  have settled : Settled {} := fun _ hi => absurd hi List.not_mem_nil
  rw [compile, c.emit_eq settled]
  simp [Builder.append, Builder.build, Builder.here]

end Code

end ChessMachine
