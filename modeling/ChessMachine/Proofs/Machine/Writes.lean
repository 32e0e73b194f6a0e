import ChessMachine.Proofs.Machine.Meaning

/-!
# Written cells

What a piece of code may write can be read off it. All other cells are as before once it has run.

## Main definitions

* `Data.AgreesExcept` — nothing has changed but the given cells.
* `Op.written`, `Code.written`, `Limit.cells` — the cells that are written, or read for a limit.

## Main results

* `Data.get_of_put` — what writing one cell does.
* `Op.agrees_of_runAll` — operations write no cells but their own.
-/
namespace ChessMachine

namespace Data

variable {d d' d'' : Data} {address value w : Word}

/-- The data agree on all cells but the given ones. -/
def AgreesExcept (cells : List Word) (d d' : Data) : Prop := ∀ w, w ∉ cells → d'.get w = d.get w

theorem AgreesExcept.refl (cells : List Word) (d : Data) : d.AgreesExcept cells d := fun _ _ => rfl

/-- What is left alone twice is left alone. -/
theorem AgreesExcept.trans {xs ys zs : List Word} (h : d.AgreesExcept xs d')
    (h' : d'.AgreesExcept ys d'') (left : xs ⊆ zs) (right : ys ⊆ zs) :
    d.AgreesExcept zs d'' :=
  fun w out => (h' w fun mem => out (right mem)).trans (h w fun mem => out (left mem))

theorem agrees_of_memory_eq (h : d'.memory = d.memory) : d.AgreesExcept [] d' := by
  intro w _
  obtain ⟨stack, memory, output⟩ := d'
  cases h
  rfl

/-- What is written to a cell is found there, and the other cells are as before. -/
theorem get_of_put (h : d.put address value = .goesOn d') :
    d'.get address = .ok value ∧ d.AgreesExcept [address] d' := by
  unfold put at h
  split at h
  · rename_i there
    obtain rfl := Outcome.goesOn.inj h
    have size : (d.memory.setIfInBounds address.val.toNat value).size = d.memory.size :=
      Array.size_setIfInBounds
    have cells (w : Word) :
        HasCell { d with memory := d.memory.setIfInBounds address.val.toNat value } w ↔
          d.HasCell w := by
      rw [HasCell, HasCell, size]
    constructor
    · rw [get, dif_pos ((cells address).2 there)]
      exact congrArg _ (Array.getElem_setIfInBounds_self _)
    · intro w out
      by_cases cell : d.HasCell w
      · have apart : address.val.toNat ≠ w.val.toNat := by
          intro same
          have eq : w.val = address.val := by
            have := there.1
            have := cell.1
            omega
          exact out (Bounded.ext eq ▸ List.mem_cons_self)
        rw [get, dif_pos ((cells w).2 cell), get, dif_pos cell]
        exact congrArg _ (Array.getElem_setIfInBounds_ne _ apart)
      · rw [get, dif_neg (mt (cells w).1 cell), get, dif_neg cell, size]
  · cases h

/-- A cell that is counted up holds one more. -/
theorem put_of_count (counts : d.get address = .ok value) (h : d.count address = .goesOn d') :
    ∃ next : Word, next.val = value.val + 1 ∧ d.put address next = .goesOn d' := by
  rw [count, counts] at h
  cases added : value.add? 1 with
  | none =>
    simp only [added] at h
    cases h
  | some next =>
    simp only [added] at h
    exact ⟨next, Bounded.ofInt?_eq_some_iff.1 added, h⟩

end Data

namespace Op

/-- The cells that an operation writes. Cells are told apart by the words that name them in
instructions, which differ for different addresses of 64 bits. -/
def written : Op → List Word
  | store address => [.ofNat address]
  | _ => []

variable {o : Op} {ops : List Op} {d d' : Data}

theorem memory_of_arithmetic {opcode : Opcode} {f : Word → Word → Option Word}
    (h : d.arithmetic opcode f = .goesOn d') : d'.memory = d.memory := by
  unfold Data.arithmetic at h
  split at h
  · split at h
    · cases h
      rfl
    · cases h
  · cases h

theorem memory_of_compare {opcode : Opcode} {f : Int → Int → Bool}
    (h : d.compare opcode f = .goesOn d') : d'.memory = d.memory := by
  unfold Data.compare at h
  split at h
  · cases h
    rfl
  · cases h

theorem memory_of_fetch {address : Word} (h : d.fetch address = .goesOn d') :
    d'.memory = d.memory := by
  unfold Data.fetch at h
  split at h
  · cases h
    rfl
  · cases h

theorem exists_of_pop {opcode : Opcode} {f : Word → Data → Outcome}
    (h : d.pop opcode f = .goesOn d') :
    ∃ value rest, d.stack = value :: rest ∧ f value { d with stack := rest } = .goesOn d' := by
  unfold Data.pop at h
  split at h
  · exact ⟨_, _, ‹_›, h⟩
  · cases h

theorem memory_of_print {asChar : Bool} (h : d.print asChar = .goesOn d') :
    d'.memory = d.memory := by
  obtain ⟨value, rest, -, h⟩ := exists_of_pop h
  split at h
  · cases h
    rfl
  · cases h

/-- An operation that goes on leaves the cells alone that it does not write. -/
theorem agrees_of_run (h : o.run d = .goesOn d') : d.AgreesExcept o.written d' := by
  cases o <;> rw [run] at h
  case push value =>
    cases h
    exact .refl _ _
  case store address =>
    obtain ⟨value, rest, -, h⟩ := exists_of_pop h
    exact (Data.get_of_put h).2
  case loadIndirect =>
    obtain ⟨address, rest, -, h⟩ := exists_of_pop h
    have same := memory_of_fetch h
    exact Data.agrees_of_memory_eq same
  case load address => exact Data.agrees_of_memory_eq (memory_of_fetch h)
  case add | mul => exact Data.agrees_of_memory_eq (memory_of_arithmetic h)
  case eq | lt | gt | neq | and | or => exact Data.agrees_of_memory_eq (memory_of_compare h)
  case print | printChar => exact Data.agrees_of_memory_eq (memory_of_print h)
  case halt => cases h

/-- Operations leave the cells alone that none of them writes. -/
theorem agrees_of_runAll (h : runAll ops d = .goesOn d') :
    d.AgreesExcept (ops.flatMap written) d' := by
  induction ops generalizing d with
  | nil =>
    cases h
    exact .refl _ _
  | cons o rest ih =>
    rw [runAll] at h
    cases ran : o.run d with
    | goesOn d₁ =>
      rw [ran] at h
      rw [List.flatMap_cons]
      exact (agrees_of_run ran).trans (ih h) (List.subset_append_left ..)
        (List.subset_append_right ..)
    | ended | failed =>
      rw [ran] at h
      cases h

end Op

/-- The cells that a tree may write: those of its stores and the counters of its loops. -/
def Code.written : Code → List Word
  | block ops => ops.flatMap Op.written
  | seq first second => first.written ++ second.written
  | guarded cond body => cond.written ++ body.written
  | loop counter _ body => .ofNat counter :: body.written

def Limit.cells : Limit → List Word
  | literal _ => []
  | cell address => [.ofNat address]

namespace Limit

variable {limit : Limit} {d d' : Data} {times w : Word}

/-- The limit of a loop depends on the cells that it reads only. -/
theorem value_eq_of_get_eq (h : ∀ w ∈ limit.cells, d'.get w = d.get w) :
    limit.value d' = limit.value d := by
  cases limit with
  | literal times => rfl
  | cell address => exact h _ List.mem_cons_self

theorem get_of_mem_cells (mem : w ∈ limit.cells) (value : limit.value d = .ok times) :
    d.get w = .ok times := by
  cases limit with
  | literal times => cases mem
  | cell address => exact List.mem_singleton.1 mem ▸ value

end Limit

end ChessMachine
