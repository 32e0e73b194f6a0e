import ChessMachine.Machine.Code

/-!
# Scripts

A script is a sequence of uses of a builder in which patches go by names. It may do what
structured code never does: jump backwards, leave a jump without a target, set a target more
than once through a patch of the same index.

## Main definitions

* `Script` — the uses of a builder.
* `Workbench` — a builder and the patches it gave out that are still unused.
* `Script.perform` — carries out a script on a workbench.
-/
namespace ChessMachine

inductive Script where
  | done
  | code (c : Code)
  | emit (inst : Instruction)
  | jump (kind : Jump) (target : Nat)
  | forward (kind : Jump) (name : String)
  /-- Brings a patch for the instruction at `index` from another builder. -/
  | foreign (name : String) (index : Nat)
  | patchHere (name : String)
  | patchTo (name : String) (target : Nat)
  | loop (counter : Nat) (limit : Limit) (body : Script)
  | guarded (cond body : Script)
  | seq (first second : Script)

structure Workbench where
  builder : Builder := {}
  patches : List (String × Patch) := []

namespace Workbench

def keep (w : Workbench) (name : String) (patch : Patch) : Workbench :=
  { w with patches := (name, patch) :: w.patches.filter (·.1 != name) }

/-- Uses up the patch of that name. -/
def use? (w : Workbench) (name : String) : Option (Patch × Workbench) :=
  (w.patches.lookup name).map fun patch =>
    (patch, { w with patches := w.patches.filter (·.1 != name) })

end Workbench

namespace Script

/-- The workbench after a script, unless the script uses a patch that is not there. -/
def perform : Script → Workbench → Option Workbench
  | done, w => some w
  | code c, w => some { w with builder := c.emit w.builder }
  | emit inst, w => some { w with builder := w.builder.emit inst }
  | jump kind target, w => some { w with builder := w.builder.jump kind target }
  | forward kind name, w =>
    let (builder, patch) := w.builder.forward kind
    some ({ w with builder }.keep name patch)
  | foreign name index, w => some (w.keep name ⟨index⟩)
  | patchHere name, w => do
    let (patch, w) ← w.use? name
    return { w with builder := w.builder.patchHere patch }
  | patchTo name target, w => do
    let (patch, w) ← w.use? name
    return { w with builder := w.builder.patchTo patch target }
  | loop counter limit body, w => do
    let (builder, opened) := w.builder.openLoop counter limit
    let w ← body.perform { w with builder }
    return { w with builder := w.builder.closeLoop opened }
  | guarded cond body, w => do
    let w ← cond.perform w
    let (builder, skip) := w.builder.forward .ifZero
    let w ← body.perform { w with builder }
    return { w with builder := w.builder.patchHere skip }
  | seq first second, w => do second.perform (← first.perform w)

end Script

end ChessMachine
