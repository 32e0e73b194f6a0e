import ChessMachine.Proofs.Board.King
import ChessMachine.Proofs.Machine.Compilation
import ChessMachine.Proofs.Rules.Attack
import ChessMachine.Proofs.Rules.Geometry
import ChessMachine.Proofs.Rules.Snapshot

/-!
# The check program finds the attacks

The program of `Position.inCheck` looks at the snapshot of the board and keeps in one cell
whether an attacker was found so far. Every part of it adds its own findings to that cell.

## Main definitions

* `scene` — the data between two parts of the program.
* `Position.Finds` — what a part of the program adds.

## Main results

* `Position.inCheck_eq`, `Position.inCheck_iff_attacked` — the answer of the program.
-/
namespace ChessMachine

/-- The data between two parts of a check program. -/
def scene (memory : Array Word) (found : Bool) : Data :=
  ⟨[], memory.setIfInBounds Position.attackedCell (Word.ofBool found), #[]⟩

namespace Position

/-- The code adds to the findings, whatever was found before. -/
def Finds (memory : Array Word) (code : Code) (finding : Bool) : Prop :=
  ∀ found, code.run (scene memory found) = some (.goesOn (scene memory (found || finding)))

namespace Finds

variable {memory : Array Word} {code code' : Code} {x y : Bool}

theorem nothing (memory : Array Word) : Finds memory (.block []) false := by
  intro found
  rw [Bool.or_false]
  rfl

/-- Two parts find something if one of them does. -/
theorem append (h : Finds memory code x) (h' : Finds memory code' y) :
    Finds memory (code ++ code') (x || y) := by
  intro found
  rw [← Bool.or_assoc]
  show Outcome.andThen (code.run _) code'.run = _
  rw [h found]
  exact h' _

/-- Parts made from a list find something if one of them does. -/
theorem all {α : Type} {codeOf : α → Code} {test : α → Bool} (xs : List α)
    (h : ∀ a, Finds memory (codeOf a) (test a)) :
    Finds memory (Code.all (xs.map codeOf)) (xs.any test) := by
  induction xs with
  | nil => exact nothing memory
  | cons a rest ih => exact (h a).append ih

end Finds

section

variable {p : Position} {memory : Array Word} (shown : p.board.Shown memory)
include shown

theorem attackedCell_lt : attackedCell < memory.size :=
  Nat.lt_of_lt_of_le (by decide) shown.minMemory_le

theorem get_square (s : Square) (found : Bool) :
    (scene memory found).get (.ofNat s.cell) = .ok (.ofNat (Piece.codeOf (p.piece? s))) := by
  have apart : attackedCell ≠ s.cell :=
    Nat.ne_of_gt (Nat.lt_trans s.cell_lt (by decide))
  refine Data.get_ofNat s.cell_lt_word ?_
  rw [scene, Array.getElem?_setIfInBounds_ne apart]
  exact shown.cell s

theorem get_attackedCell (found : Bool) :
    (scene memory found).get (.ofNat attackedCell) = .ok (Word.ofBool found) :=
  Data.get_ofNat (by decide) (Array.getElem?_setIfInBounds_self_of_lt (attackedCell_lt shown))

theorem put_attackedCell (found found' : Bool) :
    (scene memory found).put (.ofNat attackedCell) (Word.ofBool found')
      = .goesOn (scene memory found') := by
  have bound : attackedCell < (scene memory found).memory.size := by
    rw [scene, Array.size_setIfInBounds]
    exact attackedCell_lt shown
  rw [Data.put_ofNat _ (by decide) bound]
  simp [scene]

/-- The test for one attacker. -/
theorem runAll_testOne (attacker : Piece) (s : Square) (found : Bool) :
    Op.runAll [.load s.cell, .push (.ofNat attacker.code), .eq, .load attackedCell, .or,
        .store attackedCell] (scene memory found)
      = .goesOn (scene memory (found || p.holds [attacker] s)) := by
  have content := get_square shown s found
  have before := get_attackedCell shown found
  have after := put_attackedCell shown found (found || p.holds [attacker] s)
  have same : ((Word.ofNat (Piece.codeOf (p.piece? s))).val == (Word.ofNat attacker.code).val)
      = p.holds [attacker] s := by
    have code : Piece.codeOf (some attacker) = attacker.code := rfl
    rw [← code, Piece.val_codeOf, Piece.val_codeOf, Bool.eq_iff_iff, beq_iff_eq, Int.natCast_inj,
      code, Piece.codeOf_eq_code_iff]
    simp [holds]
  have either : ((Word.ofBool (p.holds [attacker] s)).val != 0 || (Word.ofBool found).val != 0)
      = (found || p.holds [attacker] s) := by
    cases found <;> cases p.holds [attacker] s <;> rfl
  simp only [Op.runAll, Op.run, Data.fetch, content, Data.push, Data.compare, same,
    Data.get_withStack, before, either, Data.pop]
  rw [show (⟨(scene memory found).stack, (scene memory found).memory, (scene memory found).output⟩
    : Data) = scene memory found from rfl, after]

/-- The test of a square finds an attacker that stands there. -/
theorem finds_testSquare (attackers : List Piece) (s : Square) :
    Finds memory (testSquare attackers s) (p.holds attackers s) := by
  intro found
  refine congrArg some ?_
  induction attackers generalizing found with
  | nil => simp [holds, Op.runAll]
  | cons attacker rest ih =>
    rw [List.flatMap_cons, Op.runAll_append, runAll_testOne shown]
    simp only [ih]
    simp [holds, Bool.or_assoc]

/-- A part that is guarded by an empty square adds nothing if the square is occupied. -/
theorem finds_guarded {body : Code} {y : Bool} (s : Square) (h : Finds memory body y) :
    Finds memory (.guarded (.block [.load s.cell, .push 0, .eq]) body)
      (!p.isOccupied s && y) := by
  intro found
  have content := get_square shown s found
  have empty : ((Word.ofNat (Piece.codeOf (p.piece? s))).val == (0 : Word).val)
      = !p.isOccupied s := by
    have zero : (0 : Word).val = (0 : Nat) := rfl
    rw [Piece.val_codeOf, zero, Bool.eq_iff_iff, beq_iff_eq, Int.natCast_inj,
      Piece.codeOf_eq_zero_iff]
    simp [isOccupied]
  have cond : (Code.block [.load s.cell, .push 0, .eq]).run (scene memory found)
      = some (.goesOn { scene memory found with
          stack := Word.ofBool (!p.isOccupied s) :: (scene memory found).stack }) := by
    simp only [Code.run, Op.runAll, Op.run, Data.fetch, content, Data.push, Data.compare, empty]
  show Outcome.andThen ((Code.block _).run _) (Code.ifNonzero body.run) = _
  rw [cond]
  cases p.isOccupied s with
  | true =>
    rw [Bool.not_true, Bool.false_and, Bool.or_false]
    rfl
  | false => exact h found

/-- The scan of a ray finds an attacker that stands on its first occupied square. -/
theorem finds_scanRay (attackers : List Piece) (squares : List Square) :
    Finds memory (scanRay attackers squares)
      ((squares.find? p.isOccupied).any (p.holds attackers)) := by
  fun_induction scanRay attackers squares with
  | case1 => exact Finds.nothing memory
  | case2 s =>
    have found := finds_testSquare shown attackers s
    cases h : p.isOccupied s with
    | true => simpa [h] using found
    | false => simpa [h, holds_of_not_isOccupied h] using found
  | case3 s rest _ ih =>
    have found := (finds_testSquare shown attackers s).append (finds_guarded shown s ih)
    cases h : p.isOccupied s with
    | true => simpa [h] using found
    | false => simpa [h, holds_of_not_isOccupied h] using found

/-- The tests of a king find whether it is attacked. -/
theorem finds_testKing (c : Color) (king : Square) :
    Finds memory (testKing c king) (p.isAttacked c king) := by
  have jumps (directions : List Direction) (kind : PieceKind) :
      Finds memory (Code.all ((directions.filterMap king.step).map
        (testSquare [⟨c.opponent, kind⟩]))) (p.jumpAttack c king directions kind) :=
    Finds.all _ (finds_testSquare shown _)
  have rays (directions : List Direction) (kind : PieceKind) :
      Finds memory (Code.all (directions.map fun d =>
        scanRay [⟨c.opponent, kind⟩, ⟨c.opponent, .queen⟩] (king.ray d)))
        (p.rayAttack c king directions kind) :=
    Finds.all _ fun d => finds_scanRay shown _ (king.ray d)
  exact ((((jumps _ .pawn).append (jumps _ .knight)).append (jumps _ .king)).append
    (rays _ .rook)).append (rays _ .bishop)

end

/-! ## The whole program -/

/-- The program prints one token. -/
theorem run_checkCode (p : Position) (c : Color) {cells : Nat} (large : minMemory ≤ cells) :
    ∃ o d, (p.checkCode c).run (.fresh cells) = some o ∧ o.data? = some d ∧
      d.output.toList = [if p.KingAttacked c then "1" else "0"] := by
  cases hk : p.king? c with
  | none =>
    have safe : ¬ p.KingAttacked c := by simp [KingAttacked, hk]
    rw [checkCode, hk, if_neg safe]
    exact ⟨_, _, rfl, rfl, rfl⟩
  | some king =>
    obtain ⟨memory, shown, snapshot⟩ := p.board.run_snapshot large
    have reset : (Code.block [.push 0, .store attackedCell]).run ⟨[], memory, #[]⟩
        = some (.goesOn (scene memory false)) :=
      Code.run_push_store _ 0 (by decide) (attackedCell_lt shown)
    have tested := finds_testKing shown c king false
    have answer := get_attackedCell shown (p.isAttacked c king)
    have attacked : p.isAttacked c king = decide (p.KingAttacked c) := by
      rw [Bool.eq_iff_iff, decide_eq_true_iff, ← kingAttacked_iff, hk]
      rfl
    have before := (Code.run_append snapshot _).trans reset
    have through := (Code.run_append before _).trans tested
    have last : (Code.block [.load attackedCell, .print, .halt]).run
        (scene memory (false || p.isAttacked c king))
        = some (.ended { scene memory (p.isAttacked c king) with
            output := #[if p.KingAttacked c then "1" else "0"] }) := by
      rw [Bool.false_or]
      simp only [Code.run, Op.runAll, Op.run, Data.fetch, answer, Data.push, Data.print, Data.pop]
      by_cases h : p.KingAttacked c <;> simp only [attacked, h] <;> rfl
    rw [checkCode, hk]
    exact ⟨_, _, (Code.run_append through _).trans last, rfl, rfl⟩

/-! ## Its size -/

theorem size_testSquare (attackers : List Piece) (s : Square) :
    (testSquare attackers s).size = 6 * attackers.length := by
  simp [testSquare, Code.size, List.length_flatMap, List.map_const', Nat.mul_comm]

theorem size_scanRay_le (attackers : List Piece) (squares : List Square) :
    (scanRay attackers squares).size ≤ squares.length * (6 * attackers.length + 4) := by
  fun_induction scanRay attackers squares with
  | case1 => exact Nat.zero_le _
  | case2 s =>
    rw [size_testSquare]
    simp
  | case3 s rest _ ih =>
    have step : (s :: rest).length * (6 * attackers.length + 4)
        = rest.length * (6 * attackers.length + 4) + (6 * attackers.length + 4) := Nat.succ_mul ..
    rw [Code.size_append, Code.size, size_testSquare, step]
    simp only [Code.size, List.length_cons, List.length_nil]
    omega

theorem size_testKing_le (c : Color) (king : Square) : (testKing c king).size ≤ 1024 := by
  have jumps (directions : List Direction) (kind : PieceKind) :
      (Code.all ((directions.filterMap king.step).map
        (testSquare [⟨c.opponent, kind⟩]))).size ≤ directions.length * 6 := by
    refine Nat.le_trans (Code.size_all_le (n := 6) ?_) ?_
    · rintro _ hc
      obtain ⟨s, -, rfl⟩ := List.mem_map.1 hc
      exact Nat.le_of_eq (size_testSquare _ s)
    · rw [List.length_map]
      exact Nat.mul_le_mul_right 6 (List.length_filterMap_le ..)
  have rays (directions : List Direction) (kind : PieceKind) :
      (Code.all (directions.map fun d =>
        scanRay [⟨c.opponent, kind⟩, ⟨c.opponent, .queen⟩] (king.ray d))).size
        ≤ directions.length * 112 := by
    refine Nat.le_trans (Code.size_all_le (n := 112) ?_) ?_
    · rintro _ hc
      obtain ⟨d, -, rfl⟩ := List.mem_map.1 hc
      exact Nat.le_trans (size_scanRay_le ..) (Nat.mul_le_mul_right 16 (king.length_ray_le d))
    · exact Nat.mul_le_mul_right 112 (Nat.le_of_eq (List.length_map ..))
  have total := Nat.add_le_add (Nat.add_le_add (Nat.add_le_add (Nat.add_le_add
    (jumps (Direction.pawn c) .pawn) (jumps Direction.knight .knight))
    (jumps Direction.royal .king)) (rays Direction.straight .rook))
    (rays Direction.diagonal .bishop)
  exact Nat.le_trans total (by cases c <;> decide)

theorem size_snapshot (b : Board) : b.snapshot.size = 128 := by
  have squares : Square.all.length = 64 := rfl
  simp [Board.snapshot, Code.size, List.length_flatMap, List.map_const', squares]

/-- The program is short, whatever the position. -/
theorem size_checkCode_le (p : Position) (c : Color) : (p.checkCode c).size ≤ 2048 := by
  rw [checkCode]
  cases p.king? c with
  | none => exact Nat.le_of_ble_eq_true rfl
  | some king =>
    have tests := size_testKing_le c king
    simp only [Code.size_append, size_snapshot, Code.size, List.length_cons, List.length_nil]
    omega

/-! ## The answer -/

/-- The program prints `1` if the king is attacked, else `0`, and never fails. -/
theorem execute_checkProgram {p : Position} {c : Color} {program : Program}
    (h : p.checkProgram c = .ok program) :
    program.execute = .ok [if p.KingAttacked c then "1" else "0"] := by
  have small : (p.checkCode c).size < 0x8000000000000000 :=
    Nat.lt_of_le_of_lt (size_checkCode_le p c) (by decide)
  obtain ⟨o, d, run, data, tokens⟩ := run_checkCode p c program.minMemory_le_memorySize
  rw [Code.execute_eq_ok small h run data, tokens]

/-- The check program says whether the king is attacked. -/
theorem inCheck_eq (p : Position) (c : Color) : p.inCheck c = .ok (decide (p.KingAttacked c)) := by
  have compiled : p.checkProgram c = .ok _ := Code.compile_eq _
  have executed := execute_checkProgram compiled
  rw [inCheck, compiled]
  simp only [bind, Except.bind, executed]
  by_cases h : p.KingAttacked c
  · rw [if_pos h, decide_eq_true h]
    rfl
  · rw [if_neg h, decide_eq_false h]
    rfl

/-- There is a check program for every position, it ends without a fault, and the answer is that
the first king of the colour is attacked. -/
theorem inCheck_iff_attacked (p : Position) (c : Color) :
    ∃ program, p.checkProgram c = .ok program ∧ (∃ output, program.execute = .ok output) ∧
      ∃ answer, p.inCheck c = .ok answer ∧
        (answer = true ↔ ∃ k, p.piece? k = some ⟨c, .king⟩ ∧
          (∀ s, s.index < k.index → p.piece? s ≠ some ⟨c, .king⟩) ∧ p.Attacked c k) := by
  have compiled : p.checkProgram c = .ok _ := Code.compile_eq _
  refine ⟨_, compiled, ⟨_, execute_checkProgram compiled⟩, _, inCheck_eq p c, ?_⟩
  rw [decide_eq_true_iff]
  simp only [KingAttacked, king?_eq_some_iff, and_assoc]

end Position

end ChessMachine
