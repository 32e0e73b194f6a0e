import ChessMachine.Machine.Script
import ChessMachine.Proofs.Machine.Uses
import Mathlib.Data.List.Perm.Subperm

/-!
# What scripts leave in a builder

A script that brings no patches from elsewhere uses every patch fairly, however its loops, guards
and jumps overlap. So its builder holds what the script emitted, with a target for every jump
forward whose patch the script used.

## Main definitions

* `Code.uses`, `Script.uses` — the uses that a tree of code and a script make of a builder.
* `Script.IsLocal` — no patch comes from elsewhere.
* `Workbench.Fits`, `Workbench.Leads` — the patches at hand are those of waiting jumps, and uses
  keep it so.

## Main results

* `Script.leads` — the uses of a script do.
* `Script.build_of_isLocal` — what the builder holds and what it builds.
-/
namespace ChessMachine

open Builder

/-! ## Uses -/

namespace Builder

def emissions (insts : List Instruction) : List Use := insts.map Use.emit

def guardUses (cond : List Use) (skip : Patch) (body : List Use) : List Use :=
  cond ++ ([.forward .ifZero] ++ (body ++ [.patchHere skip]))

def loopUses (limit : Limit) (opened : OpenLoop) (body : List Use) : List Use :=
  emissions (Op.straight (Code.resetOps opened.counter ++ Code.testOps opened.counter limit)) ++
    ([.forward .ifZero] ++ (body ++
      (emissions (Op.straight (Code.countOps opened.counter)
        ++ [⟨.jmp, some (.ofNat opened.header)⟩]) ++ [.patchHere opened.exit])))

end Builder

/-- The uses that a tree makes of a builder. -/
def Code.uses : Code → Builder → List Use
  | block ops, _ => emissions (Op.straight ops)
  | seq first second, b => first.uses b ++ second.uses (first.emit b)
  | guarded cond body, b =>
    let (open', skip) := (cond.emit b).forward .ifZero
    guardUses (cond.uses b) skip (body.uses open')
  | loop counter limit body, b =>
    let (open', opened) := b.openLoop counter limit
    loopUses limit opened (body.uses open')

namespace Script

/-- The uses that a script makes of the builder on a workbench. -/
def uses : Script → Workbench → List Use
  | done, _ | foreign _ _, _ => []
  | code c, w => c.uses w.builder
  | emit inst, _ => [.emit inst]
  | jump kind target, _ => [.emit ⟨kind.opcode, some (.ofNat target)⟩]
  | forward kind _, _ => [.forward kind]
  | patchHere name, w => ((w.patches.lookup name).map Use.patchHere).toList
  | patchTo name target, w => ((w.patches.lookup name).map (Use.patchTo · target)).toList
  | loop counter limit body, w =>
    let (builder, opened) := w.builder.openLoop counter limit
    loopUses limit opened (body.uses { w with builder })
  | guarded cond body, w =>
    match cond.perform w with
    | none => cond.uses w
    | some w' =>
      let (builder, skip) := w'.builder.forward .ifZero
      guardUses (cond.uses w) skip (body.uses { w' with builder })
  | seq first second, w =>
    match first.perform w with
    | none => first.uses w
    | some w' => first.uses w ++ second.uses w'

/-- No patch comes from another builder. -/
def IsLocal : Script → Prop
  | foreign _ _ => False
  | loop _ _ body => body.IsLocal
  | guarded cond body => cond.IsLocal ∧ body.IsLocal
  | seq first second => first.IsLocal ∧ second.IsLocal
  | _ => True

end Script

/-! ## Patches at hand -/

namespace Workbench

def atHand (w : Workbench) : List Nat := w.patches.map fun named => named.2.index

/-- The builder has this history, and the patches on the workbench, together with those held by
loops and guards that are still open, belong to different jumps that wait. -/
structure Fits (past : List Use) (held : List Nat) (w : Workbench) : Prop where
  builder : w.builder = after past
  fair : Fair past
  distinct : (held ++ w.atHand).Nodup
  waiting : ∀ i ∈ held ++ w.atHand, Waiting past i

/-- From any history, the uses lead on from one workbench to another. -/
def Leads (held : List Nat) (w : Workbench) (uses : List Use) (held' : List Nat)
    (w' : Workbench) : Prop :=
  ∀ past, Fits past held w → Fits (past ++ uses) held' w'

variable {past uses uses' body : List Use} {held held' held'' : List Nat}
  {w w' w'' : Workbench} {name : String} {i target : Nat}

theorem lookup_eq_of_use {patch : Patch} (h : w.use? name = some (patch, w')) :
    w.patches.lookup name = some patch := by
  obtain ⟨found, named, same⟩ := Option.map_eq_some_iff.1 h
  rw [named, (Prod.mk.inj same).1]

theorem fits_empty : Fits [] [] {} := ⟨rfl, .nil, List.nodup_nil, List.forall_mem_nil _⟩

/-- Patches may change hands and get lost. -/
theorem Fits.regroup (fits : Fits past held w) (same : w'.builder = w.builder)
    (fewer : (held' ++ w'.atHand).Subperm (held ++ w.atHand)) : Fits past held' w' := by
  obtain ⟨some, perm, sub⟩ := fewer
  refine ⟨same.trans fits.builder, fits.fair, perm.nodup_iff.1 (fits.distinct.sublist sub), ?_⟩
  intro i hi
  exact fits.waiting i (sub.subset (perm.mem_iff.2 hi))

namespace Leads

/-- Without any use, patches may be dropped or put elsewhere. -/
theorem here (same : w'.builder = w.builder)
    (fewer : (held' ++ w'.atHand).Subperm (held ++ w.atHand)) : Leads held w [] held' w' := by
  intro past fits
  rw [List.append_nil]
  exact fits.regroup same fewer

/-- What leads from one workbench to another goes on from there. -/
theorem andThen (first : Leads held w uses held' w') (second : Leads held' w' uses' held'' w'') :
    Leads held w (uses ++ uses') held'' w'' := by
  intro past fits
  rw [← List.append_assoc]
  exact second _ (first past fits)

theorem emissions (held : List Nat) (w : Workbench) (insts : List Instruction) :
    Leads held w (emissions insts) held { w with builder := w.builder.append insts } := by
  induction insts generalizing w with
  | nil => exact .here (by simp [append]) (List.Subperm.refl _)
  | cons inst rest ih =>
    have first : Leads held w [.emit inst] held { w with builder := w.builder.emit inst } := by
      intro past fits
      refine ⟨?_, .concat fits.fair (fun _ _ sets => by cases sets), fits.distinct, ?_⟩
      · rw [after_concat, ← fits.builder]
        rfl
      · exact fun i hi => waiting_concat_emit.2 (fits.waiting i hi)
    have both := first.andThen (ih _)
    rwa [emit_eq_append, append_append] at both

/-- The patch of a jump forward is held from then on. -/
theorem forward (held : List Nat) (w : Workbench) (kind : Jump) :
    Leads held w [.forward kind] (w.builder.here :: held)
      { w with builder := (w.builder.forward kind).1 } := by
  intro past fits
  have builder := fits.builder
  refine ⟨?_, .concat fits.fair (fun _ _ sets => by cases sets), ?_, ?_⟩
  · rw [after_concat, ← builder]
    rfl
  · refine List.nodup_cons.2 ⟨fun mem => ?_, fits.distinct⟩
    have below := (fits.waiting _ mem).lt_here
    rw [builder] at below
    exact Nat.lt_irrefl _ below
  · intro i hi
    rw [waiting_concat_forward fits.fair, ← builder]
    exact (List.mem_cons.1 hi).symm.imp_left (fits.waiting i)

/-- A patch at hand is used up. -/
theorem set {u : Use} (sets : u.sets? w.builder = some (i, target)) :
    Leads (i :: held) w [u] held { w with builder := u.on w.builder } := by
  intro past fits
  have builder := fits.builder
  have now : u.sets? (after past) = some (i, target) := builder ▸ sets
  obtain ⟨new, distinct⟩ := List.nodup_cons.1 fits.distinct
  refine ⟨?_, .concat fits.fair fun j t also => ?_, distinct, fun j hj => ?_⟩
  · rw [after_concat, ← builder]
  · obtain ⟨rfl, -⟩ := Prod.mk.inj (Option.some.inj (now.symm.trans also))
    exact fits.waiting i List.mem_cons_self
  · refine (waiting_concat_of_sets now).2 ⟨fits.waiting j (List.mem_cons_of_mem i hj), ?_⟩
    rintro rfl
    exact new hj

/-- A held patch may be laid on the workbench. -/
theorem keep (held : List Nat) (w : Workbench) (name : String) (patch : Patch) :
    Leads (patch.index :: held) w [] held (w.keep name patch) := by
  refine .here rfl ?_
  let others := (w.patches.filter (·.1 != name)).map fun named => named.2.index
  have fewer : others.Sublist w.atHand := List.filter_sublist.map _
  show (held ++ patch.index :: others).Subperm (patch.index :: (held ++ w.atHand))
  exact List.perm_middle.subperm.trans ((fewer.append_left held).cons_cons _).subperm

/-- A patch is taken from the workbench by its name. -/
theorem take {patch : Patch} (h : w.use? name = some (patch, w')) :
    Leads held w [] (patch.index :: held) w' := by
  obtain ⟨found, named, same⟩ := Option.map_eq_some_iff.1 h
  obtain ⟨rfl, rfl⟩ := Prod.mk.inj same
  refine .here rfl ?_
  obtain ⟨before, later, split, -⟩ := List.lookup_eq_some_iff.1 named
  have fewer : (w.patches.filter (·.1 != name)).Sublist (before ++ later) := by
    rw [split, List.filter_append, List.filter_cons_of_neg (by simp), ← List.filter_append]
    exact List.filter_sublist
  have whole : w.atHand = before.map (fun named => named.2.index) ++
      found.index :: later.map fun named => named.2.index := by
    rw [atHand, split, List.map_append, List.map_cons]
  have fewer := fewer.map fun named : String × Patch => named.2.index
  rw [List.map_append] at fewer
  rw [whole, ← List.append_assoc]
  refine .trans ?_ List.perm_middle.symm.subperm
  rw [List.append_assoc]
  exact ((fewer.append_left held).cons_cons _).subperm

/-! ## Guards and loops -/

/-- A guard holds the patch of its jump until its body has been emitted. -/
theorem guard (cond : Leads held w uses held w')
    (body : Leads (w'.builder.here :: held) { w' with builder := (w'.builder.forward .ifZero).1 }
      uses' (w'.builder.here :: held) w'') :
    Leads held w (guardUses uses (w'.builder.forward .ifZero).2 uses') held
      { w'' with builder := w''.builder.patchHere (w'.builder.forward .ifZero).2 } :=
  cond.andThen ((forward held w' .ifZero).andThen (body.andThen (set rfl)))

/-- A loop holds the patch of its exit until its body has been emitted. -/
theorem loop (counter : Nat) (limit : Limit)
    (body : Leads ((w.builder.openLoop counter limit).2.exit.index :: held)
      { w with builder := (w.builder.openLoop counter limit).1 } uses
      ((w.builder.openLoop counter limit).2.exit.index :: held) w') :
    Leads held w (loopUses limit (w.builder.openLoop counter limit).2 uses) held
      { w' with builder := w'.builder.closeLoop (w.builder.openLoop counter limit).2 } := by
  rw [closeLoop_eq]
  rw [openLoop_eq] at body ⊢
  exact (emissions held w _).andThen ((forward held _ .ifZero).andThen
    (body.andThen ((emissions _ w' _).andThen (set rfl))))

end Leads

end Workbench

namespace Code

open Workbench (Leads)

/-- The uses of a tree keep the patches at hand as they are. -/
theorem leads (c : Code) (held : List Nat) (w : Workbench) :
    Leads held w (c.uses w.builder) held { w with builder := c.emit w.builder } := by
  induction c generalizing held w with
  | block ops =>
    rw [emit, Builder.emitAll_eq_append]
    exact .emissions held w _
  | seq first second ih₁ ih₂ => exact (ih₁ held w).andThen (ih₂ held _)
  | guarded cond body ihc ihb => exact (ihc held w).guard (ihb _ _)
  | loop counter limit body ih =>
    let opened := w.builder.openLoop counter limit
    have inside := ih (opened.2.exit.index :: held) { w with builder := opened.1 }
    have whole := Leads.loop counter limit inside
    exact whole

end Code

namespace Script

open Workbench (Leads fits_empty lookup_eq_of_use)

/-- The uses of a script keep the patches held around it as they are. -/
theorem leads (s : Script) (isLocal : s.IsLocal) (held : List Nat) {w w' : Workbench}
    (h : s.perform w = some w') : Leads held w (s.uses w) held w' := by
  induction s generalizing held w w' with
  | done =>
    obtain rfl := Option.some.inj h
    exact .here rfl (.refl _)
  | code c =>
    obtain rfl := Option.some.inj h
    exact c.leads held w
  | emit inst =>
    obtain rfl := Option.some.inj h
    rw [emit_eq_append]
    exact .emissions held w [inst]
  | jump kind target =>
    obtain rfl := Option.some.inj h
    rw [Builder.jump, emit_eq_append]
    exact .emissions held w [_]
  | forward kind name =>
    obtain rfl := Option.some.inj h
    exact (Leads.forward held w kind).andThen (.keep held _ name _)
  | foreign name index => cases isLocal
  | patchHere name =>
    obtain ⟨⟨patch, next⟩, taken, done⟩ := Option.bind_eq_some_iff.1 h
    obtain rfl := Option.some.inj done
    rw [uses, lookup_eq_of_use taken]
    exact (Leads.take taken).andThen (.set rfl)
  | patchTo name target =>
    obtain ⟨⟨patch, next⟩, taken, done⟩ := Option.bind_eq_some_iff.1 h
    obtain rfl := Option.some.inj done
    rw [uses, lookup_eq_of_use taken]
    exact (Leads.take taken).andThen (.set rfl)
  | loop counter limit body ih =>
    obtain ⟨next, performed, done⟩ := Option.bind_eq_some_iff.1 h
    obtain rfl := Option.some.inj done
    exact .loop counter limit (ih isLocal _ performed)
  | guarded cond body ihc ihb =>
    obtain ⟨tested, performed, h⟩ := Option.bind_eq_some_iff.1 h
    obtain ⟨next, performed', done⟩ := Option.bind_eq_some_iff.1 h
    obtain rfl := Option.some.inj done
    rw [uses, performed]
    exact (ihc isLocal.1 held performed).guard (ihb isLocal.2 _ performed')
  | seq first second ih₁ ih₂ =>
    obtain ⟨next, performed, h⟩ := Option.bind_eq_some_iff.1 h
    rw [uses, performed]
    exact (ih₁ isLocal.1 held performed).andThen (ih₂ isLocal.2 held h)

/-- A script that brings no patches from elsewhere leaves every instruction as it was emitted, but
for the targets that its patches were used for. It builds a program once all of them have been
used, and otherwise the first jump without a target is to blame. In the program, a jump whose patch
was used for the next instruction leads forward to that one. -/
theorem build_of_isLocal (s : Script) (isLocal : s.IsLocal) (w : Workbench)
    (h : s.perform {} = some w) :
    w.builder = after (s.uses {}) ∧
      (∀ past later, s.uses {} = past ++ later → ∀ i inst,
        (after past).code[i]? = some inst ↔ Stands past i inst) ∧
      ((∃ p, w.builder.build = .ok p) ↔ ∀ kind i, MadeAt (s.uses {}) i (.forward kind) →
        ∃ target, Resolved (s.uses {}) i target) ∧
      (∀ f, w.builder.build = .error f ↔ ∃ i, f = .unresolvedJump i ∧ Waiting (s.uses {}) i ∧
        ∀ j, Waiting (s.uses {}) j → i ≤ j) ∧
      ∀ p, w.builder.build = .ok p → ∀ i target, MadeAt (s.uses {}) target (.patchHere ⟨i⟩) →
        i < target ∧ target ≤ p.size ∧ ∃ kind, MadeAt (s.uses {}) i (.forward kind) ∧
          p.code[i]? = some ⟨kind.opcode, some (.ofNat target)⟩ := by
  have fits := s.leads isLocal [] h [] fits_empty
  rw [List.nil_append] at fits
  have fair := fits.fair
  rw [fits.builder]
  refine ⟨rfl, fun past later split i inst => ?_, fair.exists_build_iff,
    fun f => fair.build_eq_error_iff, fun p built i target made => ?_⟩
  · rw [split] at fair
    exact fair.of_append.getElem?_code_iff
  · obtain ⟨-, rfl⟩ := build_eq_ok_iff.1 built
    obtain ⟨kind, issued⟩ := fair.issued_of_resolved (.inl made)
    exact ⟨fair.lt_of_patchHere made, made.le_here, kind, issued,
      fair.getElem?_code_iff.2 (.resolved issued (.inl made))⟩

/-- Two jumps lead into the body of a loop, and the second one does so from within a guard. -/
def crossing : Script :=
  .seq (.code (.block [.push 0])) <|
  .seq (.forward .ifZero "first") <|
  .seq (.forward .always "second") <|
  .loop Layout.counter (.literal 3) <|
  .seq (.patchHere "first") <|
  .guarded (.code (.block [.push 1])) (.patchHere "second")

theorem build_crossing : ∃ w p, crossing.perform {} = some w ∧ w.builder.build = .ok p ∧
    11 ≤ p.size ∧ ∃ kind : Jump, p.code[2]? = some ⟨kind.opcode, some (.ofNat 11)⟩ := by
  obtain ⟨w, performed⟩ : ∃ w, crossing.perform {} = some w :=
    Option.isSome_iff_exists.1 (by decide +kernel)
  have settled : (crossing.perform {}).map (·.builder.pending) = some [] := by decide +kernel
  rw [performed] at settled
  have built := build_eq_ok_iff.2 ⟨Option.some.inj settled, rfl⟩
  have used : MadeAt (crossing.uses {}) 11 (.patchHere ⟨2⟩) :=
    ⟨(crossing.uses {}).take 12, (crossing.uses {}).drop 13, by decide +kernel, by decide +kernel⟩
  obtain ⟨-, -, -, -, leads⟩ := build_of_isLocal crossing (by simp [crossing, IsLocal]) w performed
  obtain ⟨-, inside, kind, -, stands⟩ := leads _ built 2 11 used
  exact ⟨w, _, performed, built, inside, kind, stands⟩

end Script

end ChessMachine
