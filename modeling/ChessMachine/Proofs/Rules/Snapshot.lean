import ChessMachine.Proofs.Machine.Meaning
import ChessMachine.Rules.Check

/-!
# The board in memory

After the snapshot every square has its code in its cell.

## Main definitions

* `Board.Shown` — a memory in which the cells of the squares show a board.

## Main results

* `Board.run_snapshot_of_le`, `Board.run_snapshot` — the snapshot leaves such a memory.
-/
namespace ChessMachine

theorem Square.cell_lt (s : Square) : s.cell < 64 := by
  rw [cell, Layout.board, Nat.zero_add]
  exact s.index_lt

theorem Square.cell_lt_word (s : Square) : s.cell < 0x8000000000000000 :=
  Nat.lt_trans s.cell_lt (by decide)

theorem Square.cell_lt_size {memory : Array Word} (large : minMemory ≤ memory.size) (s : Square) :
    s.cell < memory.size :=
  Nat.lt_of_lt_of_le (Nat.lt_trans s.cell_lt (by decide)) large

theorem Square.cell_inj {s t : Square} : s.cell = t.cell ↔ s = t := by
  rw [cell, cell, Nat.add_left_cancel_iff, index_inj]

namespace Piece

theorem code_injective {p q : Piece} (h : p.code = q.code) : p = q := by
  have := ofCode?_code p
  rw [h, ofCode?_code] at this
  exact (Option.some.inj this).symm

/-- The code of a square tells which piece stands there. -/
theorem codeOf_eq_code_iff {content : Option Piece} {p : Piece} :
    codeOf content = p.code ↔ content = some p := by
  cases content with
  | none => simp [codeOf, code]
  | some q => simp only [codeOf, Option.some.injEq]; exact ⟨code_injective, fun h => h ▸ rfl⟩

theorem codeOf_eq_zero_iff {content : Option Piece} : codeOf content = 0 ↔ content = none := by
  cases content <;> simp [codeOf, code]

theorem codeOf_lt (content : Option Piece) : codeOf content < 13 := by
  rcases content with _ | ⟨c, k⟩
  · decide
  · cases c <;> cases k <;> decide

theorem val_codeOf (content : Option Piece) : (Word.ofNat (codeOf content)).val = codeOf content :=
  Word.val_ofNat (Nat.lt_trans (codeOf_lt content) (by decide))

end Piece

namespace Board

/-- The cells of the squares hold the codes of what stands there. -/
structure Shown (b : Board) (memory : Array Word) : Prop where
  minMemory_le : minMemory ≤ memory.size
  cell : ∀ s : Square, memory[s.cell]? = some (.ofNat (Piece.codeOf (b.piece? s)))

def storeSquares (b : Board) (memory : Array Word) (squares : List Square) : Array Word :=
  squares.foldl
    (fun memory s => memory.setIfInBounds s.cell (.ofNat (Piece.codeOf (b.piece? s)))) memory

variable {b : Board} {memory : Array Word} {squares : List Square}

@[simp] theorem size_storeSquares : (b.storeSquares memory squares).size = memory.size := by
  induction squares generalizing memory with
  | nil => rfl
  | cons s rest ih =>
    rw [storeSquares, List.foldl_cons]
    exact ih.trans (Array.size_setIfInBounds ..)

theorem getElem?_storeSquares (large : minMemory ≤ memory.size) {t : Square}
    (h : t ∈ squares ∨ memory[t.cell]? = some (.ofNat (Piece.codeOf (b.piece? t)))) :
    (b.storeSquares memory squares)[t.cell]? = some (.ofNat (Piece.codeOf (b.piece? t))) := by
  induction squares generalizing memory with
  | nil => exact h.resolve_left List.not_mem_nil
  | cons s rest ih =>
    rw [storeSquares, List.foldl_cons]
    refine ih (by rwa [Array.size_setIfInBounds]) ?_
    by_cases same : s = t
    · subst same
      exact .inr (Array.getElem?_setIfInBounds_self_of_lt (s.cell_lt_size large))
    · rw [Array.getElem?_setIfInBounds_ne (mt Square.cell_inj.1 same)]
      exact h.imp_left fun mem => (List.mem_cons.1 mem).resolve_left (Ne.symm same)

/-- Cells behind the board stay as they are. -/
theorem getElem?_storeSquares_of_le {i : Nat} (le : 64 ≤ i) :
    (b.storeSquares memory squares)[i]? = memory[i]? := by
  induction squares generalizing memory with
  | nil => rfl
  | cons s rest ih =>
    rw [storeSquares, List.foldl_cons]
    have apart : s.cell ≠ i := Nat.ne_of_lt (Nat.lt_of_lt_of_le s.cell_lt le)
    exact ih.trans (Array.getElem?_setIfInBounds_ne apart)

/-- The board is still shown if a cell behind it is written. -/
theorem Shown.set (shown : b.Shown memory) {i : Nat} (le : 64 ≤ i) (value : Word) :
    b.Shown (memory.setIfInBounds i value) := by
  refine ⟨by rw [Array.size_setIfInBounds]; exact shown.minMemory_le, fun s => ?_⟩
  have apart : i ≠ s.cell := Nat.ne_of_gt (Nat.lt_of_lt_of_le s.cell_lt le)
  rw [Array.getElem?_setIfInBounds_ne apart, shown.cell]

/-- The codes of the squares are stored one after the other. -/
theorem runAll_storeSquares (large : minMemory ≤ memory.size) (stack : List Word)
    (output : Array String) :
    Op.runAll (squares.flatMap fun s =>
        [.push (.ofNat (Piece.codeOf (b.piece? s))), .store s.cell]) ⟨stack, memory, output⟩
      = .goesOn ⟨stack, b.storeSquares memory squares, output⟩ := by
  induction squares generalizing memory with
  | nil => rfl
  | cons s rest ih =>
    have stored := Data.put_ofNat (d := ⟨stack, memory, output⟩)
      (.ofNat (Piece.codeOf (b.piece? s))) s.cell_lt_word (s.cell_lt_size large)
    rw [List.flatMap_cons, Op.runAll_append]
    simp only [Op.runAll, Op.run, Data.push, Data.pop, stored]
    exact ih (by rwa [Array.size_setIfInBounds])

/-- The snapshot shows the board in memory and leaves the cells behind it alone. -/
theorem run_snapshot_of_le (b : Board) (large : minMemory ≤ memory.size) (stack : List Word)
    (output : Array String) :
    ∃ memory', b.Shown memory' ∧ (∀ i, 64 ≤ i → memory'[i]? = memory[i]?) ∧
      b.snapshot.run ⟨stack, memory, output⟩ = some (.goesOn ⟨stack, memory', output⟩) :=
  ⟨b.storeSquares memory Square.all,
    ⟨by rwa [size_storeSquares], fun s => getElem?_storeSquares large (.inl s.mem_all)⟩,
    fun _ => getElem?_storeSquares_of_le, congrArg some (runAll_storeSquares large stack output)⟩

/-- The snapshot shows the board in the memory of a fresh machine. -/
theorem run_snapshot (b : Board) {cells : Nat} (large : minMemory ≤ cells) :
    ∃ memory, b.Shown memory ∧
      b.snapshot.run (.fresh cells) = some (.goesOn ⟨[], memory, #[]⟩) := by
  have large' : minMemory ≤ (Array.replicate cells (0 : Word)).size := by
    rwa [Array.size_replicate]
  obtain ⟨memory, shown, -, run⟩ := b.run_snapshot_of_le large' [] #[]
  exact ⟨memory, shown, run⟩

end Board

end ChessMachine
