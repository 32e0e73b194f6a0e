import ChessMachine.Proofs.Evaluation.Evaluate
import ChessMachine.Proofs.Evaluation.Terms
import ChessMachine.Proofs.Machine.Counting
import ChessMachine.Proofs.Rules.CheckProgram
import ChessMachine.Proofs.Rules.Failure
import ChessMachine.Proofs.Text.Numeral

/-!
# The evaluation program adds the terms

Each part of the program of `Position.evaluate` takes the total so far from its cell and leaves
the next one there, or overflows where the checked sum of the terms does.

## Main definitions

* `Code.Yields` — what a part of the program computes.
* `Position.Ledger` — what is known between two parts.

## Main results

* `Position.yields_totalCode` — the program adds the terms.
* `Position.execute_eq_ok`, `Position.execute_eq_error` — what it prints.
* `Position.evaluate_cases` — the evaluation.
-/
namespace ChessMachine

namespace Code

/-- The code computes a word and goes on with data that have something to do with it. If there is
no word, it overflows. -/
def Yields (code : Code) (d : Data) (result : Option Word) (Holds : Word → Data → Prop) : Prop :=
  match result with
  | some n => ∃ d', code.run d = some (.goesOn d') ∧ Holds n d'
  | none => ∃ opcode, code.run d = some (.failed (.overflow opcode))

namespace Yields

variable {code next : Code} {d : Data} {result : Option Word} {f : Word → Option Word}
  {Holds Holds' : Word → Data → Prop}

/-- The second part goes on from the word of the first, and either may overflow. -/
theorem append (h : code.Yields d result Holds)
    (h' : ∀ n d, Holds n d → next.Yields d (f n) Holds') :
    (code ++ next).Yields d (result.bind f) Holds' := by
  cases result with
  | none =>
    obtain ⟨opcode, run⟩ := h
    exact ⟨opcode, run_append_of_failed run next⟩
  | some n =>
    obtain ⟨d', run, holds⟩ := h
    have later := h' n d' holds
    rw [Option.bind_some]
    cases hf : f n with
    | none =>
      rw [hf] at later
      obtain ⟨opcode, run'⟩ := later
      exact ⟨opcode, (run_append run next).trans run'⟩
    | some m =>
      rw [hf] at later
      obtain ⟨d'', run', holds'⟩ := later
      exact ⟨d'', (run_append run next).trans run', holds'⟩

/-- Code that computes nothing keeps the word. -/
theorem keep (h : code.Yields d result Holds)
    (h' : ∀ n d, Holds n d → next.Yields d (some n) Holds') :
    (code ++ next).Yields d result Holds' := by
  have kept := h.append h'
  rwa [Option.bind_fun_some] at kept

end Yields

end Code

namespace Position

open Layout

variable {w : Weights} {p : Position} {d : Data} {n : Word}

/-! ## Material -/

def pieceOps (w : Weights) (placed : Square × Piece) : List Op :=
  [.push (w.wordOf placed.2 placed.1), .push (.wrap placed.2.color.sign), .mul, .add]

theorem mul?_wordOf (w : Weights) (placed : Square × Piece) :
    (w.wordOf placed.2 placed.1).mul? (Word.wrap placed.2.color.sign)
      = Bounded.ofInt? (pieceTerm w placed) := by
  rw [Bounded.mul?, val_wrap_sign, Int.mul_comm, pieceTerm]

/-- The values of some pieces are added up on the stack, one by one. -/
theorem yields_pieceOps (w : Weights) (ps : List (Square × Piece)) (memory : Array Word)
    (output : Array String) (acc : Word) :
    (Code.block (ps.flatMap (pieceOps w))).Yields ⟨[acc], memory, output⟩
      (acc.addTerms? (ps.map (pieceTerm w))) (fun n d => d = ⟨[n], memory, output⟩) := by
  -- each piece either overflows in its product or in the sum, or passes a new top on
  induction ps generalizing acc with
  | nil => exact ⟨_, rfl, rfl⟩
  | cons first rest ih =>
    have product := mul?_wordOf w first
    rw [List.map_cons, Word.addTerms?_cons, List.flatMap_cons]
    simp only [Code.Yields, Code.run, Op.runAll_append, Op.runAll, Op.run, pieceOps, Data.push,
      Data.arithmetic, product]
    cases (Bounded.ofInt? (pieceTerm w first) : Option Word) with
    | none => exact ⟨.mul, rfl⟩
    | some value =>
      simp only [Option.bind_some]
      cases acc.add? value with
      | none => exact ⟨.add, rfl⟩
      | some next => exact ih next

/-- The total so far stands in its cell. -/
structure Started (n : Word) (d : Data) : Prop where
  stack : d.stack = []
  output : d.output = #[]
  minMemory_le : minMemory ≤ d.memory.size
  total : d.memory[Layout.total]? = some n

/-- The first part of the program computes what all pieces are worth. -/
theorem yields_materialCode {cells : Nat} (large : minMemory ≤ cells) :
    (materialCode w p).Yields (.fresh cells) ((0 : Word).addTerms? (p.pieces.map (pieceTerm w)))
      Started := by
  have size : (Array.replicate cells (0 : Word)).size = cells := Array.size_replicate
  have there : Layout.total < (Array.replicate cells (0 : Word)).size := by
    rw [size]
    exact Nat.lt_of_lt_of_le (by decide) large
  have pushed : (Code.block [.push 0]).Yields (.fresh cells) (some 0)
      (fun n d => d = ⟨[n], Array.replicate cells 0, #[]⟩) := ⟨_, rfl, rfl⟩
  have added := pushed.append fun n d hd => hd ▸ yields_pieceOps w p.pieces _ #[] n
  refine added.keep fun n d hd => ?_
  subst hd
  have stored := Data.put_ofNat (d := ⟨[], Array.replicate cells 0, #[]⟩) (i := Layout.total) n
    (by decide) there
  refine ⟨⟨[], (Array.replicate cells 0).setIfInBounds Layout.total n, #[]⟩, ?_, rfl, rfl, ?_, ?_⟩
  · simp only [Code.run, Op.runAll, Op.run, Data.pop, stored]
  · rwa [Array.size_setIfInBounds, size]
  · exact Array.getElem?_setIfInBounds_self_of_lt there

/-! ## Between the parts -/

/-- The board is shown in memory, and the total so far stands in its cell. -/
structure Ledger (p : Position) (n : Word) (d : Data) : Prop where
  stack : d.stack = []
  output : d.output = #[]
  shown : p.board.Shown d.memory
  total : d.memory[Layout.total]? = some n

namespace Ledger

theorem lt_size (ledger : Ledger p n d) {cell : Nat} (small : cell < minMemory) :
    cell < d.memory.size :=
  Nat.lt_of_lt_of_le small ledger.shown.minMemory_le

/-- Cells that are neither on the board nor that of the total may be written. -/
theorem set (ledger : Ledger p n d) (cell : Nat) (le : 64 ≤ cell) (ne : cell ≠ Layout.total)
    (value : Word) : Ledger p n { d with memory := d.memory.setIfInBounds cell value } :=
  ⟨ledger.stack, ledger.output, ledger.shown.set le value,
    by rw [Array.getElem?_setIfInBounds_ne ne, ledger.total]⟩

theorem setTotal (ledger : Ledger p n d) (m : Word) :
    Ledger p m { d with memory := d.memory.setIfInBounds Layout.total m } :=
  ⟨ledger.stack, ledger.output, ledger.shown.set (by decide) m,
    Array.getElem?_setIfInBounds_self_of_lt (ledger.lt_size (by decide))⟩

theorem get_total (ledger : Ledger p n d) : d.get (.ofNat Layout.total) = .ok n :=
  Data.get_ofNat (by decide) ledger.total

theorem get_square (ledger : Ledger p n d) (s : Square) :
    d.get (.ofNat s.cell) = .ok (.ofNat (Piece.codeOf (p.piece? s))) :=
  Data.get_ofNat s.cell_lt_word (ledger.shown.cell s)

end Ledger

/-- Writing the board to memory leaves the total alone. -/
theorem yields_snapshot (started : Started n d) :
    p.board.snapshot.Yields d (some n) (Ledger p) := by
  obtain ⟨stack, memory, output⟩ := d
  obtain ⟨rfl, rfl, large, total⟩ := started
  obtain ⟨memory', shown, kept, run⟩ := p.board.run_snapshot_of_le large [] #[]
  exact ⟨_, run, rfl, rfl, shown, (kept _ (by decide)).trans total⟩

def Counted (p : Position) (cell count : Nat) (n : Word) (d : Data) : Prop :=
  Ledger p n d ∧ d.memory[cell]? = some (.ofNat count)

/-- A multiple of a count is added to the total. -/
theorem yields_addMultiple {cell count : Nat} (weight : Int) (small : cell < minMemory)
    (count_le : count ≤ 64) (fits : (Word.wrap weight).val = weight)
    (counted : Counted p cell count n d) :
    (addMultiple cell weight).Yields d (n.addTerms? [weight * count]) (Ledger p) := by
  obtain ⟨ledger, count_at⟩ := counted
  have get_count : d.get (.ofNat cell) = .ok (.ofNat count) :=
    Data.get_ofNat (Nat.lt_trans small (by decide)) count_at
  have product : (Word.ofNat count).mul? (Word.wrap weight) = Bounded.ofInt? (weight * count) := by
    rw [Bounded.mul?, fits, Word.val_ofNat (by omega), Int.mul_comm]
  have stored (m : Word) := Data.put_ofNat (d := d) m (by decide)
    (ledger.lt_size (by decide : Layout.total < minMemory))
  rw [Word.addTerms?_singleton, addMultiple]
  simp only [Code.Yields, Code.run, Op.runAll, Op.run, Data.fetch, ledger.get_total, get_count,
    Data.push, Data.get_withStack, Data.arithmetic, product]
  cases (Bounded.ofInt? (weight * count) : Option Word) with
  | none => exact ⟨.mul, rfl⟩
  | some value =>
    simp only [Option.bind_some]
    cases n.add? value with
    | none => exact ⟨.add, rfl⟩
    | some m =>
      refine ⟨_, ?_, ledger.setTotal m⟩
      simp only [Data.pop, stored]

/-! ## Mobility -/

/-- The test of the mobility loop says whether a square is occupied. -/
theorem run_testOccupied (ledger : Ledger p n d) (s : Square)
    (count : d.memory[counter]? = some (.ofNat s.index)) :
    (Code.block [.load counter, .push (.ofNat Layout.board), .add, .loadIndirect, .push 0,
      .neq]).run d = some (.goesOn { d with stack := [Word.ofBool (p.isOccupied s)] }) := by
  have index := s.index_lt
  have get_counter : d.get (.ofNat counter) = .ok (.ofNat s.index) :=
    Data.get_ofNat (by decide) count
  have address : (Word.ofNat s.index).add? (Word.ofNat Layout.board)
      = some (Word.ofNat s.cell) := by
    rw [Word.add?_ofNat (by simp only [Layout.board]; omega), Square.cell, Nat.add_comm]
  have occupied : ((Word.ofNat (Piece.codeOf (p.piece? s))).val != (0 : Word).val)
      = p.isOccupied s := by
    have zero : (0 : Word).val = (0 : Nat) := rfl
    rw [Piece.val_codeOf, zero, Bool.eq_iff_iff, bne_iff_ne, ne_eq, Int.natCast_inj,
      Piece.codeOf_eq_zero_iff]
    simp [isOccupied, Option.isSome_iff_ne_none]
  simp only [Code.run, Op.runAll, Op.run, Data.fetch, get_counter, Data.push, Data.arithmetic,
    address, Data.pop, Data.get_withStack, ledger.get_square, Data.compare, occupied, ledger.stack]

def occupiedBefore (p : Position) (i : Nat) : Nat := (Square.all.take i).countP p.isOccupied

theorem occupiedBefore_succ {i : Nat} (lt : i < Square.all.length) :
    p.occupiedBefore (i + 1) = p.occupiedBefore i + (p.isOccupied Square.all[i]).toNat := by
  rw [occupiedBefore, List.take_succ_eq_append_getElem lt, List.countP_append,
    List.countP_singleton, occupiedBefore]
  cases p.isOccupied Square.all[i] <;> rfl

theorem occupiedBefore_le (p : Position) (i : Nat) : p.occupiedBefore i ≤ 64 :=
  Nat.le_trans List.countP_le_length
    (Nat.le_trans (List.length_take_le' ..) (Nat.le_of_eq Square.length_all))

theorem occupiedBefore_length_all (p : Position) :
    p.occupiedBefore Square.all.length = p.occupiedCount := by
  rw [occupiedBefore, List.take_length, occupiedCount]

def mobilityScene (p : Position) (memory : Array Word) (i : Nat) : Data :=
  let memory := memory.setIfInBounds counter (.ofNat i)
  ⟨[], memory.setIfInBounds scratch (.ofNat (p.occupiedBefore i)), #[]⟩

/-- One turn of the loop counts a square if it is occupied. -/
theorem turn_mobility {memory : Array Word} {i : Nat} (ledger : Ledger p n ⟨[], memory, #[]⟩)
    (lt : i < Square.all.length) :
    Code.turn counter
      (Code.guarded (Code.block [.load counter, .push (.ofNat Layout.board), .add, .loadIndirect,
        .push 0, .neq]) (Code.increment scratch)).run (p.mobilityScene memory i)
      = some (.goesOn (p.mobilityScene memory (i + 1))) := by
  have small : i + 1 < 0x8000000000000000 := by
    rw [Square.length_all] at lt
    omega
  have few := p.occupiedBefore_le i
  have counter_lt : counter < memory.size := ledger.lt_size (by decide)
  have scratch_lt : scratch < memory.size := ledger.lt_size (by decide)
  have here (v : Word) (k : Nat) : ((memory.setIfInBounds counter v).setIfInBounds scratch
      (.ofNat k))[counter]? = some v := by
    rw [Array.getElem?_setIfInBounds_ne (by decide)]
    exact Array.getElem?_setIfInBounds_self_of_lt counter_lt
  have scene : Ledger p n (p.mobilityScene memory i) :=
    (ledger.set counter (by decide) (by decide) _).set scratch (by decide) (by decide) _
  have tested := run_testOccupied scene Square.all[i]
    (by rw [Square.index_getElem_all lt]; exact here _ _)
  have body := Code.run_guarded_increment (memory.setIfInBounds counter (.ofNat i)) scratch
    (by decide) (by rwa [Array.size_setIfInBounds]) (by omega) tested
  rw [← occupiedBefore_succ lt] at body
  -- the counter is written behind the other cell, and that order is changed back
  rw [mobilityScene, Code.turn_eq_goesOn body (by decide) small (here _ _),
    Array.setIfInBounds_comm _ _ (by decide : scratch ≠ counter),
    Array.setIfInBounds_setIfInBounds]
  rfl

/-- The occupied squares are counted. -/
theorem yields_occupiedCode (ledger : Ledger p n d) :
    occupiedCode.Yields d (some n) (Counted p scratch p.occupiedCount) := by
  obtain ⟨stack, memory, output⟩ := d
  obtain rfl : stack = [] := ledger.stack
  obtain rfl : output = #[] := ledger.output
  have counter_lt : counter < memory.size := ledger.lt_size (by decide)
  have scratch_lt : scratch < memory.size := ledger.lt_size (by decide)
  have reset : (Code.block [.push 0, .store scratch]).run ⟨[], memory, #[]⟩
      = some (.goesOn ⟨[], memory.setIfInBounds scratch 0, #[]⟩) :=
    Code.run_push_store _ 0 (by decide) scratch_lt
  have opened : (⟨[], memory.setIfInBounds scratch 0, #[]⟩ : Data).put (.ofNat counter) 0
      = .goesOn (p.mobilityScene memory 0) := by
    have bound : counter < (memory.setIfInBounds scratch 0).size := by
      rwa [Array.size_setIfInBounds]
    rw [Data.put_ofNat 0 (by decide) bound,
      Array.setIfInBounds_comm _ _ (by decide : scratch ≠ counter)]
    rfl
  have counts (i : Nat) : (p.mobilityScene memory i).get (.ofNat counter) = .ok (.ofNat i) := by
    refine Data.get_ofNat (by decide) ?_
    rw [mobilityScene, Array.getElem?_setIfInBounds_ne (by decide)]
    exact Array.getElem?_setIfInBounds_self_of_lt counter_lt
  have looped := Code.run_loop (p.mobilityScene memory) (by decide) opened (fun i _ => counts i)
    fun i lt => turn_mobility ledger lt
  refine ⟨_, (Code.run_append reset _).trans looped,
    (ledger.set counter (by decide) (by decide) _).set scratch (by decide) (by decide) _, ?_⟩
  rw [mobilityScene, occupiedBefore_length_all]
  exact Array.getElem?_setIfInBounds_self_of_lt (by rwa [Array.size_setIfInBounds])

/-! ## King safety -/

/-- The codes of a colour's pieces lie between those of its pawn and its king. -/
theorem code_between (c : Color) (content : Option Piece) :
    (decide ((Word.wrap ((Piece.mk c .pawn).code - 1)).val
        < (Word.ofNat (Piece.codeOf content)).val) &&
      decide ((Word.ofNat (Piece.codeOf content)).val
        < (Word.wrap ((Piece.mk c .king).code + 1)).val))
      = decide (content.map Piece.color = some c) := by
  rcases content with _ | ⟨d, kind⟩
  · cases c <;> decide
  · cases c <;> cases d <;> cases kind <;> decide

theorem run_holdsColor (ledger : Ledger p n d) (c : Color) (s : Square) :
    (holdsColor c s).run d
      = some (.goesOn { d with stack := [Word.ofBool (p.color? s = some c)] }) := by
  have nonzero (b : Bool) : ((Word.ofBool b).val != 0) = b := by cases b <;> rfl
  have between := code_between c (p.piece? s)
  rw [holdsColor]
  simp only [Code.run, Op.runAll, Op.run, Data.fetch, ledger.get_square, Data.push, Data.compare,
    Data.get_withStack, nonzero, ledger.stack]
  rw [between, color?]

/-- The guards of a king's neighbours count the pieces of a colour on them. -/
theorem run_countColor (c : Color) (squares : List Square) {memory : Array Word} (count : Nat)
    (few : count + squares.length ≤ 64) (ledger : Ledger p n ⟨[], memory, #[]⟩) :
    (Code.all (squares.map fun s => .guarded (holdsColor c s) (Code.increment kingSafety))).run
        ⟨[], memory.setIfInBounds kingSafety (.ofNat count), #[]⟩
      = some (.goesOn ⟨[], memory.setIfInBounds kingSafety
          (.ofNat (count + squares.countP fun s => p.color? s = some c)), #[]⟩) := by
  induction squares generalizing count with
  | nil => rfl
  | cons s rest ih =>
    rw [List.length_cons] at few
    have written : Ledger p n ⟨[], memory.setIfInBounds kingSafety (.ofNat count), #[]⟩ :=
      ledger.set kingSafety (by decide) (by decide) _
    have first := Code.run_guarded_increment memory kingSafety (by decide)
      (ledger.lt_size (by decide)) (by omega) (run_holdsColor written c s)
    have le : (decide (p.color? s = some c)).toNat ≤ 1 := Bool.toNat_le _
    have later := ih (count + (decide (p.color? s = some c)).toNat) (by omega)
    have counted : count + (s :: rest).countP (fun s => p.color? s = some c)
        = count + (decide (p.color? s = some c)).toNat
          + rest.countP fun s => p.color? s = some c := by
      rw [List.countP_cons]
      cases decide (p.color? s = some c) with
      | false => simp
      | true =>
        simp only [if_true, Bool.toNat_true]
        omega
    rw [counted]
    exact (Code.run_append first _).trans later

/-- The last count is that of the enemies beside the king. -/
theorem yields_neighboursCode (ledger : Ledger p n d) (c : Color) (king : Square) :
    (neighboursCode c king).Yields d (some n)
      (Counted p kingSafety (p.piecesBeside c.opponent king)) := by
  obtain ⟨stack, memory, output⟩ := d
  obtain rfl : stack = [] := ledger.stack
  obtain rfl : output = #[] := ledger.output
  have safety_lt : kingSafety < memory.size := ledger.lt_size (by decide)
  have reset : (Code.block [.push 0, .store kingSafety]).run ⟨[], memory, #[]⟩
      = some (.goesOn ⟨[], memory.setIfInBounds kingSafety (.ofNat 0), #[]⟩) :=
    Code.run_push_store _ 0 (by decide) safety_lt
  have few : 0 + (Direction.royal.filterMap king.step).length ≤ 64 := by
    have : (Direction.royal.filterMap king.step).length ≤ 8 := List.length_filterMap_le ..
    omega
  have counted := run_countColor c.opponent _ 0 few ledger
  rw [countP_royal_steps, Nat.zero_add] at counted
  exact ⟨_, (Code.run_append reset _).trans counted,
    ledger.set kingSafety (by decide) (by decide) _,
    Array.getElem?_setIfInBounds_self_of_lt safety_lt⟩

/-! ## The whole program -/

def totalCode (w : Weights) (p : Position) (king : Square) : Code :=
  materialCode w p ++ p.board.snapshot ++ occupiedCode ++ addMultiple scratch mobilityWeight
    ++ neighboursCode p.toMove king ++ addMultiple kingSafety (-kingSafetyWeight * p.toMove.sign)

/-- With a king, the program computes the total, prints it and halts. -/
theorem evalCode_eq {king : Square} (h : p.king? p.toMove = some king) :
    p.evalCode w = totalCode w p king ++ Code.block [.load Layout.total, .print, .halt] := by
  rw [evalCode, h]
  rfl

/-- The program adds the terms of the evaluation. -/
theorem yields_totalCode {cells : Nat} (large : minMemory ≤ cells) (king : Square) :
    (totalCode w p king).Yields (.fresh cells) ((0 : Word).addTerms? (evalTerms w p king))
      (Ledger p) := by
  have safety : (Word.wrap (-kingSafetyWeight * p.toMove.sign)).val
      = -kingSafetyWeight * p.toMove.sign := by
    cases p.toMove <;> decide
  have material := yields_materialCode (w := w) (p := p) large
  have shown := material.keep fun n d => yields_snapshot (p := p)
  have occupied := shown.keep fun n d => yields_occupiedCode
  have mobility := occupied.append fun n d =>
    yields_addMultiple mobilityWeight (by decide) (Square.countP_all_le _) (by decide)
  have beside := mobility.keep fun n d h => yields_neighboursCode h p.toMove king
  have total := beside.append fun n d =>
    yields_addMultiple _ (by decide) (Square.countP_all_le _) safety
  rw [evalTerms, Word.addTerms?_append, Word.addTerms?_append]
  exact total

theorem size_neighboursCode_le (c : Color) (king : Square) :
    (neighboursCode c king).size ≤ 98 := by
  have few : (Direction.royal.filterMap king.step).length ≤ 8 := List.length_filterMap_le ..
  have each : ∀ code ∈ (Direction.royal.filterMap king.step).map fun s =>
      Code.guarded (holdsColor c.opponent s) (Code.increment kingSafety), code.size ≤ 12 := by
    intro code mem
    obtain ⟨s, -, rfl⟩ := List.mem_map.1 mem
    exact Nat.le_refl 12
  have guards := Code.size_all_le each
  rw [List.length_map] at guards
  rw [neighboursCode, Code.size_append, Code.size, List.length_cons, List.length_singleton]
  omega

theorem size_evalCode_le (w : Weights) (p : Position) : (p.evalCode w).size ≤ 1024 := by
  cases h : p.king? p.toMove with
  | none =>
    rw [evalCode, h]
    exact Nat.le_of_ble_eq_true rfl
  | some king =>
    have pieces : p.pieces.length ≤ 64 :=
      Nat.le_trans (List.length_filterMap_le ..) (Nat.le_of_eq Square.length_all)
    have material : (materialCode w p).size = 4 * p.pieces.length + 2 := by
      simp [materialCode, Code.size, List.length_flatMap, List.map_const', Nat.mul_comm]
      omega
    have neighbours := size_neighboursCode_le p.toMove king
    have occupied : occupiedCode.size = 24 := rfl
    have multiple (cell : Nat) (weight : Int) : (addMultiple cell weight).size = 6 := rfl
    rw [evalCode_eq h, totalCode]
    simp only [Code.size_append, material, size_snapshot, occupied, multiple, Code.size,
      List.length_cons, List.length_nil]
    omega

/-! ## The evaluation -/

/-- The program is short enough for the targets of its jumps to be words. -/
theorem small_evalCode (w : Weights) (p : Position) : (p.evalCode w).size < 0x8000000000000000 :=
  Nat.lt_of_le_of_lt (size_evalCode_le w p) (by decide)

section

variable {king : Square} (h : p.king? p.toMove = some king)
include h

/-- The program prints the sum of the terms. -/
theorem execute_eq_ok (sum : (0 : Word).addTerms? (evalTerms w p king) = some n) :
    (p.evalCode w).execute = .ok [toString n] := by
  obtain ⟨program, compiled⟩ : ∃ program, p.evalProgram w = .ok program := ⟨_, Code.compile_eq _⟩
  have computed := yields_totalCode (w := w) (p := p) program.minMemory_le_memorySize king
  rw [sum] at computed
  obtain ⟨d, run, ledger⟩ := computed
  have printed : (Code.block [.load Layout.total, .print, .halt]).run d
      = some (.ended { d with output := #[toString n] }) := by
    simp only [Code.run, Op.runAll, Op.run, Data.fetch, ledger.get_total, Data.push, Data.print,
      Data.pop, ledger.output]
    rfl
  have whole := (Code.run_append run _).trans printed
  rw [← evalCode_eq h] at whole
  have executed := Code.execute_eq_ok (small_evalCode w p) compiled whole rfl
  rw [Code.execute, ← evalProgram, compiled]
  exact executed

/-- If a sum is too large, the program overflows. -/
theorem execute_eq_error (sum : (0 : Word).addTerms? (evalTerms w p king) = none) :
    ∃ ip opcode, (p.evalCode w).execute = .error (.overflow ip opcode) := by
  obtain ⟨program, compiled⟩ : ∃ program, p.evalProgram w = .ok program := ⟨_, Code.compile_eq _⟩
  have computed := yields_totalCode (w := w) (p := p) program.minMemory_le_memorySize king
  rw [sum] at computed
  obtain ⟨opcode, run⟩ := computed
  have whole := Code.run_append_of_failed run (.block [.load Layout.total, .print, .halt])
  rw [← evalCode_eq h] at whole
  obtain ⟨ip, failed⟩ := Code.execute_eq_error (small_evalCode w p) compiled whole
  refine ⟨ip, opcode, ?_⟩
  rw [Code.execute, ← evalProgram, compiled]
  exact failed

/-- A sum that is a word is clamped to the scores. -/
theorem evaluate_eq_ok (sum : (0 : Word).addTerms? (evalTerms w p king) = some n) :
    p.evaluate w = .ok (.clamped n.val) := by
  obtain ⟨program, compiled, printed⟩ := bind_eq_ok_iff.1 (execute_eq_ok h sum)
  rw [← evalProgram] at compiled
  simp only [evaluate, compiled, printed, bind, Except.bind, Text.word?_toString]
  rfl

/-- Terms without a sum are an overflow. -/
theorem evaluate_eq_error (sum : (0 : Word).addTerms? (evalTerms w p king) = none) :
    ∃ ip opcode, p.evaluate w = .error (.overflow ip opcode) := by
  obtain ⟨ip, opcode, failed⟩ := execute_eq_error h sum
  obtain ⟨program, compiled⟩ : ∃ program, p.evalProgram w = .ok program := ⟨_, Code.compile_eq _⟩
  refine ⟨ip, opcode, ?_⟩
  rw [Code.execute, ← evalProgram, compiled] at failed
  rw [evaluate, compiled]
  exact bind_eq_error_iff.2 (.inr ⟨program, rfl, bind_eq_error_iff.2 (.inl failed)⟩)

end

/-- A side to move without a king counts as mated. Otherwise the evaluation is the sum of the
terms, brought between the scores of the checkmates, if all terms and partial sums have 64 signed
bits, and an overflow if not. The terms of the pieces are those that tables of contributions
show. -/
theorem evaluate_cases (w : Weights) (p : Position) :
    (p.king? p.toMove = none ∧ p.evaluate w = .ok (Score.mated p.toMove) ∨
      ∃ king, p.king? p.toMove = some king ∧
        (Word.SumsFit (evalTerms w p king) ∧
            p.evaluate w = .ok (.clamped (Word.total (evalTerms w p king))) ∨
          ¬ Word.SumsFit (evalTerms w p king) ∧
            ∃ ip opcode, p.evaluate w = .error (.overflow ip opcode))) ∧
      ∀ s n, p.contribution? w s = .ok (some n) ↔
        ∃ piece, p.piece? s = some piece ∧ n.val = pieceTerm w (s, piece) := by
  refine ⟨?_, fun s n => contribution?_eq_some_iff⟩
  cases h : p.king? p.toMove with
  | none => exact .inl ⟨rfl, evaluate_of_no_king w h⟩
  | some king =>
    refine .inr ⟨king, rfl, ?_⟩
    by_cases fit : Word.SumsFit (evalTerms w p king)
    · obtain ⟨n, sum, value⟩ := fit.exists_eq_some
      exact .inl ⟨fit, by rw [evaluate_eq_ok h sum, value]⟩
    · exact .inr ⟨fit, evaluate_eq_error h (Word.addTerms?_zero_eq_none fit)⟩

end Position

end ChessMachine
