import ChessMachine.Proofs.Machine.Emission
import Mathlib.Data.List.Induction

/-!
# The uses of a builder

What a builder holds is told by its history, the uses that were made of it one after the other.
If every patch is used once at most, and on the builder that issued it, then no use disturbs what
another one has emitted, and the pending jumps are those whose patches have not been used.

## Main definitions

* `Builder.Use`, `Builder.after` — a use of a builder, and the builder after a history of uses.
* `Builder.MadeAt` — a use was made when the next instruction had a given index.
* `Builder.Resolved`, `Builder.Waiting` — a jump forward has got its target, or has not.
* `Builder.Fair` — patches are used only while their jumps wait for it.
* `Builder.Stands` — which instruction stands at an index, after a history of uses.

## Main results

* `Builder.Fair.mem_pending_iff` — the pending jumps are those that wait.
* `Builder.Fair.getElem?_code_iff` — the code of the builder is what stands there.
-/
namespace ChessMachine

namespace Builder

/-- One use of a builder. -/
inductive Use where
  | emit (inst : Instruction)
  | forward (kind : Jump)
  | patchHere (patch : Patch)
  | patchTo (patch : Patch) (target : Nat)
deriving DecidableEq

namespace Use

def on : Use → Builder → Builder
  | emit inst, b => b.emit inst
  | forward kind, b => (b.forward kind).1
  | patchHere patch, b => b.patchHere patch
  | patchTo patch target, b => b.patchTo patch target

/-- The instruction that the use appends. -/
def emits? : Use → Option Instruction
  | emit inst => some inst
  | forward kind => some ⟨kind.opcode, some 0⟩
  | patchHere _ | patchTo _ _ => none

/-- The index of the jump whose target the use sets, and the target. -/
def sets? (b : Builder) : Use → Option (Nat × Nat)
  | emit _ | forward _ => none
  | patchHere patch => some (patch.index, b.here)
  | patchTo patch target => some (patch.index, target)

variable {u : Use} {b : Builder} {inst : Instruction} {i target : Nat}

theorem code_on_of_emits (h : u.emits? = some inst) : (u.on b).code = b.code.push inst := by
  cases u with
  | emit | forward => cases h; rfl
  | patchHere | patchTo => cases h

theorem sets?_of_emits (h : u.emits? = some inst) : u.sets? b = none := by
  cases u with
  | emit | forward => rfl
  | patchHere | patchTo => cases h

/-- A use that sets a target does nothing else. -/
theorem on_of_sets (h : u.sets? b = some (i, target)) : u.on b = b.patchTo ⟨i⟩ target := by
  cases u with
  | emit | forward => cases h
  | patchHere | patchTo => cases h; rfl

theorem here_on_of_emits (h : u.emits? = some inst) : (u.on b).here = b.here + 1 := by
  rw [here, code_on_of_emits h, Array.size_push, here]

theorem here_le_here_on (u : Use) (b : Builder) : b.here ≤ (u.on b).here := by
  cases h : u.sets? b with
  | some set =>
    have kept : (u.on b).here = b.here := by
      rw [on_of_sets h, Builder.patchTo, here, here, Array.size_modify]
    exact Nat.le_of_eq kept.symm
  | none =>
    cases u with
    | emit | forward => exact Nat.le.intro (here_on_of_emits rfl).symm
    | patchHere | patchTo => cases h

end Use

/-! ## Histories -/

def after (past : List Use) : Builder := past.foldl (fun b u => u.on b) {}

/-- The use was made when the next instruction had this index. -/
def MadeAt (past : List Use) (index : Nat) (u : Use) : Prop :=
  ∃ before later, past = before ++ u :: later ∧ (after before).here = index

/-- The patch of the jump at `i` was used for this target. -/
def Resolved (past : List Use) (i target : Nat) : Prop :=
  MadeAt past target (.patchHere ⟨i⟩) ∨ ∃ here, MadeAt past here (.patchTo ⟨i⟩ target)

/-- The jump at `i` leads forward, and its patch has not been used. -/
def Waiting (past : List Use) (i : Nat) : Prop :=
  (∃ kind, MadeAt past i (.forward kind)) ∧ ∀ target, ¬ Resolved past i target

/-- A patch is used only while the jump that it was issued for waits. -/
inductive Fair : List Use → Prop where
  | nil : Fair []
  | concat {past : List Use} {u : Use} (fair : Fair past)
    (waits : ∀ i target, u.sets? (after past) = some (i, target) → Waiting past i) :
    Fair (past ++ [u])

variable {past : List Use} {u v : Use} {inst inst' : Instruction} {kind : Jump}
  {i j target : Nat}

theorem after_concat (past : List Use) (u : Use) : after (past ++ [u]) = u.on (after past) :=
  List.foldl_append ..

theorem not_madeAt_nil : ¬ MadeAt [] i u := by
  rintro ⟨before, later, split, -⟩
  simp at split

theorem madeAt_concat :
    MadeAt (past ++ [u]) i v ↔ MadeAt past i v ∨ v = u ∧ (after past).here = i := by
  constructor
  · rintro ⟨before, later, split, here⟩
    rcases List.eq_nil_or_concat later with rfl | ⟨rest, last, rfl⟩
    · obtain ⟨rfl, same⟩ := List.append_inj' split rfl
      exact .inr ⟨(List.cons.inj same).1.symm, here⟩
    · rw [List.concat_eq_append, ← List.cons_append, ← List.append_assoc] at split
      exact .inl ⟨before, rest, (List.append_inj' split rfl).1, here⟩
  · rintro (⟨before, later, rfl, here⟩ | ⟨rfl, here⟩)
    · exact ⟨before, later ++ [u], by simp, here⟩
    · exact ⟨past, [], rfl, here⟩

theorem MadeAt.concat (made : MadeAt past i v) (u : Use) : MadeAt (past ++ [u]) i v :=
  madeAt_concat.2 (.inl made)

/-- A jump has been resolved before, or the last use resolves it. -/
theorem resolved_concat : Resolved (past ++ [u]) i target ↔
    Resolved past i target ∨ u.sets? (after past) = some (i, target) := by
  simp only [Resolved, madeAt_concat, exists_or]
  cases u with
  | emit | forward => simp [Use.sets?]
  | patchHere patch | patchTo patch =>
    obtain ⟨k⟩ := patch
    simp only [Use.sets?]
    grind

/-! ## Indices -/

/-- What was emitted has its index for good. -/
theorem MadeAt.lt_here (made : MadeAt past i u) (emits : u.emits? = some inst) :
    i < (after past).here := by
  induction past using List.reverseRecOn with
  | nil => exact absurd made not_madeAt_nil
  | append_singleton past v ih =>
    rw [after_concat]
    rcases madeAt_concat.1 made with made | ⟨rfl, rfl⟩
    · exact Nat.lt_of_lt_of_le (ih made) (v.here_le_here_on _)
    · rw [Use.here_on_of_emits emits]
      exact Nat.lt_succ_self _

theorem MadeAt.le_here (made : MadeAt past i u) : i ≤ (after past).here := by
  induction past using List.reverseRecOn with
  | nil => exact absurd made not_madeAt_nil
  | append_singleton past v ih =>
    have grows := v.here_le_here_on (after past)
    rw [after_concat]
    rcases madeAt_concat.1 made with made | ⟨-, rfl⟩
    · exact Nat.le_trans (ih made) grows
    · exact grows

/-- Only one use emits the instruction at an index. -/
theorem MadeAt.unique (made : MadeAt past i u) (made' : MadeAt past i v)
    (emits : u.emits? = some inst) (emits' : v.emits? = some inst') : u = v := by
  induction past using List.reverseRecOn with
  | nil => exact absurd made not_madeAt_nil
  | append_singleton past last ih =>
    rcases madeAt_concat.1 made with before | ⟨rfl, here⟩ <;>
      rcases madeAt_concat.1 made' with before' | ⟨rfl, here'⟩
    · exact ih before before'
    · exact absurd here' (Nat.ne_of_gt (before.lt_here emits))
    · exact absurd here (Nat.ne_of_gt (before'.lt_here emits'))
    · rfl

theorem Waiting.lt_here (waiting : Waiting past i) : i < (after past).here := by
  obtain ⟨⟨kind, issued⟩, -⟩ := waiting
  exact issued.lt_here rfl

/-! ## Fair histories -/

/-- A history stays fair as long as only patches of waiting jumps are used. -/
theorem fair_concat_iff : Fair (past ++ [u]) ↔
    Fair past ∧ ∀ i target, u.sets? (after past) = some (i, target) → Waiting past i := by
  refine ⟨fun fair => ?_, fun ⟨fair, waits⟩ => .concat fair waits⟩
  generalize whole : past ++ [u] = uses at fair
  cases fair with
  | nil => simp at whole
  | concat fair waits =>
    obtain ⟨rfl, same⟩ := List.append_inj' whole rfl
    obtain rfl := (List.cons.inj same).1
    exact ⟨fair, waits⟩

/-- A fair history was fair all along. -/
theorem Fair.of_append {later : List Use} (fair : Fair (past ++ later)) : Fair past := by
  induction later using List.reverseRecOn with
  | nil => rwa [List.append_nil] at fair
  | append_singleton later u ih =>
    rw [← List.append_assoc] at fair
    exact ih (fair_concat_iff.1 fair).1

/-- Only patches that this builder issued are used. -/
theorem Fair.issued_of_resolved (fair : Fair past) (resolved : Resolved past i target) :
    ∃ kind, MadeAt past i (.forward kind) := by
  induction fair with
  | nil =>
    rcases resolved with made | ⟨here, made⟩ <;> exact absurd made not_madeAt_nil
  | @concat past u fair waits ih =>
    have issued : ∃ kind, MadeAt past i (.forward kind) := by
      rcases resolved_concat.1 resolved with before | now
      · exact ih before
      · exact (waits i target now).1
    obtain ⟨kind, made⟩ := issued
    exact ⟨kind, made.concat u⟩

/-- No patch is used before its jump is emitted. -/
theorem Fair.not_resolved_here (fair : Fair past) : ¬ Resolved past (after past).here target := by
  intro resolved
  obtain ⟨kind, issued⟩ := fair.issued_of_resolved resolved
  exact Nat.lt_irrefl _ (issued.lt_here rfl)

/-- A jump that leads to what comes next leads forward. -/
theorem Fair.lt_of_patchHere (fair : Fair past) (made : MadeAt past target (.patchHere ⟨i⟩)) :
    i < target := by
  induction fair with
  | nil => exact absurd made not_madeAt_nil
  | @concat past u fair waits ih =>
    rcases madeAt_concat.1 made with before | ⟨rfl, rfl⟩
    · exact ih before
    · exact (waits i _ rfl).lt_here

/-! ## Pending jumps -/

theorem waiting_concat_emit : Waiting (past ++ [.emit inst]) i ↔ Waiting past i := by
  simp [Waiting, madeAt_concat, resolved_concat, Use.sets?]

/-- A new jump waits, and all others do as before. -/
theorem waiting_concat_forward (fair : Fair past) :
    Waiting (past ++ [.forward kind]) i ↔ Waiting past i ∨ i = (after past).here := by
  have fresh (target : Nat) : ¬ Resolved past (after past).here target := fair.not_resolved_here
  simp only [Waiting, madeAt_concat, resolved_concat, Use.sets?]
  grind

/-- A jump whose patch is used waits no longer, and all others do as before. -/
theorem waiting_concat_of_sets (sets : u.sets? (after past) = some (j, target)) :
    Waiting (past ++ [u]) i ↔ Waiting past i ∧ i ≠ j := by
  have silent (kind : Jump) : Use.forward kind ≠ u := by
    rintro rfl
    cases sets
  simp only [Waiting, madeAt_concat, resolved_concat, silent]
  grind

/-- The pending jumps are those whose patches have not been used. -/
theorem Fair.mem_pending_iff (fair : Fair past) : i ∈ (after past).pending ↔ Waiting past i := by
  induction fair generalizing i with
  | nil => exact iff_of_false List.not_mem_nil fun ⟨⟨kind, made⟩, _⟩ => not_madeAt_nil made
  | @concat past u fair waits ih =>
    rw [after_concat]
    cases u with
    | emit inst => exact ih.trans waiting_concat_emit.symm
    | forward kind =>
      rw [waiting_concat_forward fair, ← ih]
      exact List.mem_append.trans (or_congr_right List.mem_singleton)
    | patchHere patch | patchTo patch =>
      rw [waiting_concat_of_sets rfl, ← ih]
      simp [Use.on, patchHere, patchTo]

/-- A program is built exactly if no jump is pending. -/
theorem build_eq_ok_iff {b : Builder} {p : Program} :
    b.build = .ok p ↔ b.pending = [] ∧ p = ⟨b.code⟩ := by
  rw [build, ← List.min?_eq_none_iff]
  cases b.pending.min? with
  | none => simp [eq_comm]
  | some first => simp

/-- Otherwise the pending jump of the least index is reported. -/
theorem build_eq_error_iff {b : Builder} {f : Fault} : b.build = .error f ↔
    ∃ i, f = .unresolvedJump i ∧ i ∈ b.pending ∧ ∀ j ∈ b.pending, i ≤ j := by
  simp only [build, ← List.min?_eq_some_iff]
  cases b.pending.min? with
  | none => simp
  | some first => simp [eq_comm]

/-- A program gets finished once every patch has been used. -/
theorem Fair.exists_build_iff (fair : Fair past) : (∃ p, (after past).build = .ok p) ↔
    ∀ kind i, MadeAt past i (.forward kind) → ∃ target, Resolved past i target := by
  simp only [build_eq_ok_iff, exists_and_left, exists_eq, and_true,
    List.eq_nil_iff_forall_not_mem, fair.mem_pending_iff, Waiting]
  grind

/-- Otherwise the first jump that waits is to blame. -/
theorem Fair.build_eq_error_iff {f : Fault} (fair : Fair past) : (after past).build = .error f ↔
    ∃ i, f = .unresolvedJump i ∧ Waiting past i ∧ ∀ j, Waiting past j → i ≤ j := by
  simp only [Builder.build_eq_error_iff, fair.mem_pending_iff]

/-! ## Instructions -/

/-- Which instruction stands at `i`: what was emitted there, where a jump forward leads to the
start while it waits, and then to the target that its patch was used for. -/
inductive Stands (past : List Use) (i : Nat) : Instruction → Prop where
  | emitted {inst : Instruction} (made : MadeAt past i (.emit inst)) : Stands past i inst
  | waiting {kind : Jump} (made : MadeAt past i (.forward kind))
    (unused : ∀ target, ¬ Resolved past i target) : Stands past i ⟨kind.opcode, some 0⟩
  | resolved {kind : Jump} {target : Nat} (made : MadeAt past i (.forward kind))
    (used : Resolved past i target) : Stands past i ⟨kind.opcode, some (.ofNat target)⟩

theorem not_stands_nil : ¬ Stands [] i inst := by
  rintro (made | made | made) <;> exact not_madeAt_nil made

/-- What is emitted stands at the end, and nothing else changes. -/
theorem stands_concat_of_emits (fair : Fair past) (emits : u.emits? = some inst') :
    Stands (past ++ [u]) i inst ↔ Stands past i inst ∨ i = (after past).here ∧ inst = inst' := by
  have resolved (i target : Nat) : Resolved (past ++ [u]) i target ↔ Resolved past i target := by
    simp [resolved_concat, Use.sets?_of_emits emits]
  constructor
  · rintro (made | ⟨made, unused⟩ | ⟨made, used⟩)
    · rcases madeAt_concat.1 made with made | ⟨rfl, here⟩
      · exact .inl (.emitted made)
      · exact .inr ⟨here.symm, Option.some.inj emits⟩
    · rcases madeAt_concat.1 made with made | ⟨rfl, here⟩
      · exact .inl (.waiting made fun target used => unused target ((resolved i target).2 used))
      · exact .inr ⟨here.symm, Option.some.inj emits⟩
    · rw [resolved] at used
      rcases madeAt_concat.1 made with made | ⟨-, rfl⟩
      · exact .inl (.resolved made used)
      · exact absurd used fair.not_resolved_here
  · rintro ((made | ⟨made, unused⟩ | ⟨made, used⟩) | ⟨rfl, rfl⟩)
    · exact .emitted (made.concat u)
    · exact .waiting (made.concat u)
        fun target used => unused target ((resolved i target).1 used)
    · exact .resolved (made.concat u) ((resolved i _).2 used)
    · have now : MadeAt (past ++ [u]) (after past).here u := madeAt_concat.2 (.inr ⟨rfl, rfl⟩)
      cases u with
      | emit inst =>
        obtain rfl := Option.some.inj emits
        exact .emitted now
      | forward kind =>
        obtain rfl := Option.some.inj emits
        exact .waiting now fun target used => fair.not_resolved_here ((resolved _ target).1 used)
      | patchHere | patchTo => cases emits

/-- Where a jump waits, the use of its patch sets its target and leaves all else alone. -/
theorem stands_concat_of_sets (sets : u.sets? (after past) = some (j, target))
    (issued : MadeAt past j (.forward kind)) (unused : ∀ target, ¬ Resolved past j target) :
    Stands (past ++ [u]) i inst ↔ i ≠ j ∧ Stands past i inst ∨
      i = j ∧ inst = ⟨kind.opcode, some (.ofNat target)⟩ := by
  have made_iff {v : Use} {inst : Instruction} (emits : v.emits? = some inst) :
      MadeAt (past ++ [u]) i v ↔ MadeAt past i v := by
    refine madeAt_concat.trans (or_iff_left ?_)
    rintro ⟨rfl, -⟩
    rw [Use.sets?_of_emits emits] at sets
    cases sets
  have resolved_iff (t : Nat) :
      Resolved (past ++ [u]) i t ↔ Resolved past i t ∨ i = j ∧ t = target := by
    rw [resolved_concat, sets, Option.some.injEq, Prod.mk.injEq, eq_comm (a := j),
      eq_comm (a := target)]
  constructor
  · intro stands
    by_cases same : i = j
    · subst same
      have only {v : Use} {inst : Instruction} (made : MadeAt (past ++ [u]) i v)
          (emits : v.emits? = some inst) : v = .forward kind :=
        ((made_iff emits).1 made).unique issued emits rfl
      refine .inr ⟨rfl, ?_⟩
      rcases stands with made | ⟨made, never⟩ | ⟨made, used⟩
      · cases only made rfl
      · exact absurd ((resolved_iff target).2 (.inr ⟨rfl, rfl⟩)) (never target)
      · cases only made rfl
        rcases (resolved_iff _).1 used with earlier | ⟨-, rfl⟩
        · exact absurd earlier (unused _)
        · rfl
    · refine .inl ⟨same, ?_⟩
      rcases stands with made | ⟨made, never⟩ | ⟨made, used⟩
      · exact .emitted ((made_iff rfl).1 made)
      · exact .waiting ((made_iff rfl).1 made)
          fun t used => never t ((resolved_iff t).2 (.inl used))
      · exact .resolved ((made_iff rfl).1 made)
          (((resolved_iff _).1 used).resolve_right fun now => same now.1)
  · rintro (⟨other, made | ⟨made, never⟩ | ⟨made, used⟩⟩ | ⟨rfl, rfl⟩)
    · exact .emitted (made.concat u)
    · exact .waiting (made.concat u) fun t used =>
        never t (((resolved_iff t).1 used).resolve_right fun now => other now.1)
    · exact .resolved (made.concat u) ((resolved_iff _).2 (.inl used))
    · exact .resolved (issued.concat u) ((resolved_iff target).2 (.inr ⟨rfl, rfl⟩))

/-- No use disturbs what another one has emitted. -/
theorem Fair.getElem?_code_iff (fair : Fair past) :
    (after past).code[i]? = some inst ↔ Stands past i inst := by
  induction fair generalizing i inst with
  | nil => exact iff_of_false (by simp [after]) not_stands_nil
  | @concat past u fair waits ih =>
    rw [after_concat]
    cases sets : u.sets? (after past) with
    | none =>
      obtain ⟨new, emits⟩ : ∃ new, u.emits? = some new := by
        cases u with
        | emit | forward => exact ⟨_, rfl⟩
        | patchHere | patchTo => cases sets
      rw [stands_concat_of_emits fair emits, ← ih, Use.code_on_of_emits emits,
        Array.getElem?_push]
      by_cases last : i = (after past).code.size
      · subst last
        simp [here, eq_comm]
      · simp [here, last]
    | some set =>
      obtain ⟨j, target⟩ := set
      obtain ⟨⟨kind, issued⟩, unused⟩ := waits j target sets
      have waiting := ih.2 (.waiting issued unused)
      rw [stands_concat_of_sets sets issued unused, ← ih, Use.on_of_sets sets, patchTo,
        Array.getElem?_modify]
      by_cases same : j = i
      · subst same
        simp [waiting, eq_comm]
      · simp [same, Ne.symm same]

end Builder

end ChessMachine
