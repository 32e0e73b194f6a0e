import ChessMachine.Proofs.Board.MoveText
import ChessMachine.Proofs.Machine.Compilation
import ChessMachine.Proofs.Machine.Counting
import ChessMachine.Proofs.Machine.Memory
import ChessMachine.Proofs.Rules.Failure
import ChessMachine.Rules.MoveList

/-!
# Lists of moves survive the machine

The characters of a list of moves fill the memory from one cell on, and a loop prints them in
their order. What is printed reads as the same moves. Only a list whose text does not fit into
the memory is lost, with a fault.

## Main definitions

* `MoveList.fill` — the memory once characters have been stored.

## Main results

* `MoveList.execute_program` — what the program of a list prints.
* `MoveList.stream_of_le`, `MoveList.stream_of_gt` — what comes back.
-/
namespace ChessMachine

theorem Machine.token?_char (c : Char) :
    token? true (.ofNat c.toNat) = some (String.singleton c) := by
  have small : c.toNat < 0x8000000000000000 := by
    have valid : c.toNat.isValidChar := c.valid
    unfold Nat.isValidChar at valid
    omega
  have code : (Word.ofNat c.toNat).toNat? = some c.toNat :=
    Word.toNat?_eq_some_iff.2 (Word.val_ofNat small)
  have valid : c.toNat.isValidChar := c.valid
  simp [token?, code, valid]

namespace MoveList

open Layout

/-! ## Characters in memory -/

/-- The memory after characters have been stored from a cell on. -/
def fill (memory : Array Word) (cell : Nat) : List Char → Array Word
  | [] => memory
  | c :: rest => fill (memory.setIfInBounds cell (.ofNat c.toNat)) (cell + 1) rest

variable {memory : Array Word} {cell i : Nat} {cs : List Char} {moves : List Move}

@[simp] theorem size_fill : (fill memory cell cs).size = memory.size := by
  induction cs generalizing memory cell with
  | nil => rfl
  | cons c rest ih => rw [fill, ih, Array.size_setIfInBounds]

theorem getElem?_fill_of_lt (lt : i < cell) : (fill memory cell cs)[i]? = memory[i]? := by
  induction cs generalizing memory cell with
  | nil => rfl
  | cons c rest ih => rw [fill, ih (by omega), Array.getElem?_setIfInBounds_ne (by omega)]

theorem getElem?_fill (fits : cell + cs.length ≤ memory.size) {c : Char} (h : cs[i]? = some c) :
    (fill memory cell cs)[cell + i]? = some (.ofNat c.toNat) := by
  induction cs generalizing memory cell i with
  | nil => cases h
  | cons first rest ih =>
    rw [List.length_cons] at fits
    rw [fill]
    cases i with
    | zero =>
      obtain rfl : first = c := by simpa using h
      rw [Nat.add_zero, getElem?_fill_of_lt (by omega)]
      exact Array.getElem?_setIfInBounds_self_of_lt (by omega)
    | succ i =>
      rw [← Nat.add_assoc, Nat.add_right_comm]
      exact ih (by rw [Array.size_setIfInBounds]; omega) h

/-- Characters that fit the memory are stored one behind the other. -/
theorem runAll_storeChars (fits : cell + cs.length ≤ memory.size)
    (small : memory.size ≤ 0x8000000000000000) (stack : List Word) (output : Array String) :
    Op.runAll (storeChars cell cs) ⟨stack, memory, output⟩
      = .goesOn ⟨stack, fill memory cell cs, output⟩ := by
  induction cs generalizing memory cell with
  | nil => rfl
  | cons c rest ih =>
    rw [List.length_cons] at fits
    have stored := Data.put_ofNat (d := ⟨stack, memory, output⟩) (i := cell) (.ofNat c.toNat)
      (by omega) (show cell < memory.size by omega)
    simp only [storeChars, Op.runAll, Op.run, Data.push, Data.pop, stored]
    have size : (memory.setIfInBounds cell (.ofNat c.toNat)).size = memory.size :=
      Array.size_setIfInBounds ..
    exact ih (by omega) (by omega)

@[simp] theorem length_storeChars (cell : Nat) (cs : List Char) :
    (storeChars cell cs).length = 2 * cs.length := by
  induction cs generalizing cell with
  | nil => rfl
  | cons c rest ih => simp only [storeChars, List.length_cons, ih]; omega

/-- Each character has a cell that the program names. -/
theorem store_mem_storeChars (lt : i < cs.length) : .store (cell + i) ∈ storeChars cell cs := by
  induction cs generalizing cell i with
  | nil => cases lt
  | cons c rest ih =>
    cases i with
    | zero => simp [storeChars]
    | succ i =>
      have later : .store (cell + 1 + i) ∈ storeChars (cell + 1) rest :=
        ih (Nat.lt_of_succ_lt_succ lt)
      rw [Nat.add_right_comm] at later
      exact List.mem_cons_of_mem _ (List.mem_cons_of_mem _ later)

/-! ## Printing -/

/-- The data of the printing loop once `i` characters have been printed. -/
def scene (memory : Array Word) (cs : List Char) (i : Nat) : Data :=
  ⟨[], memory.setIfInBounds counter (.ofNat i), ((cs.take i).map String.singleton).toArray⟩

/-- One run of the body of the printing loop. -/
theorem run_printChar {d : Data} {c : Char} (stack : d.stack = []) (small : i < 0x1000000)
    (count : d.get (.ofNat counter) = .ok (.ofNat i))
    (char : d.get (.ofNat (i + charBuffer)) = .ok (.ofNat c.toNat)) :
    (Code.block [.load counter, .push (.ofNat charBuffer), .add, .loadIndirect, .printChar]).run d
      = some (.goesOn { d with output := d.output.push (String.singleton c) }) := by
  obtain ⟨_, memory, output⟩ := d
  obtain rfl : _ = [] := stack
  have address : (Word.ofNat i).add? (Word.ofNat charBuffer) = some (Word.ofNat (i + charBuffer)) :=
    Word.add?_ofNat (by simp only [charBuffer]; omega)
  simp only [Code.run, Op.runAll, Op.run, Data.fetch, count, Data.push, Data.arithmetic, address,
    Data.pop, char, Data.print, Machine.token?_char]

/-- The printing loop goes through its scenes. -/
theorem run_printChars (memory : Array Word) (cs : List Char) (small : cs.length < 0x1000000)
    (there : counter < memory.size)
    (filled : ∀ i c, cs[i]? = some c → memory[charBuffer + i]? = some (.ofNat c.toNat)) :
    (printChars cs.length).run ⟨[], memory, #[]⟩
      = some (.goesOn (scene memory cs cs.length)) := by
  have cell (i : Nat) :
      (memory.setIfInBounds counter (.ofNat i))[counter]? = some (.ofNat i) :=
    Array.getElem?_setIfInBounds_self_of_lt there
  have counts (i : Nat) : (scene memory cs i).get (.ofNat counter) = .ok (.ofNat i) :=
    Data.get_ofNat (by decide) (cell i)
  refine Code.run_loop (scene memory cs) (by omega) (Data.put_ofNat 0 (by decide) there)
    (fun i _ => counts i) fun i lt => ?_
  have char : (scene memory cs i).get (.ofNat (i + charBuffer)) = .ok (.ofNat cs[i].toNat) := by
    refine Data.get_ofNat (by simp only [charBuffer]; omega) ?_
    rw [scene, Array.getElem?_setIfInBounds_ne (by simp only [counter, charBuffer]; omega),
      Nat.add_comm]
    exact filled i cs[i] (List.getElem?_eq_getElem lt)
  have body := run_printChar (d := scene memory cs i) rfl (by omega) (counts i) char
  rw [Code.turn_eq_goesOn body (by decide) (by omega) (cell i)]
  simp only [scene, Array.setIfInBounds_setIfInBounds, List.push_toArray,
    List.take_succ_eq_append_getElem lt, List.map_append, List.map_cons, List.map_nil]

/-! ## The program of a list -/

variable {p : Program}

/-- The characters are stored at the start of the program. -/
theorem fits_storeChars (h : program moves = .ok p) :
    Fits p.code 0 (Op.straight (storeChars charBuffer (chars moves))) :=
  (Code.fits_of_compile h).left.left.left

theorem store_mem_code (h : program moves = .ok p) (lt : i < (chars moves).length) :
    (Op.store (charBuffer + i)).instruction ∈ p.code :=
  (fits_storeChars h).mem (List.mem_map_of_mem (store_mem_storeChars lt))

/-- A text that fits into the largest memory fits into that of its program. -/
theorem le_memorySize (h : program moves = .ok p)
    (le : (chars moves).length ≤ maxMemory - charBuffer) :
    charBuffer + (chars moves).length ≤ p.memorySize := by
  rcases Nat.eq_zero_or_pos (chars moves).length with none | some
  · rw [none]
    exact Nat.le_trans (by decide) p.minMemory_le_memorySize
  · have last : (chars moves).length - 1 < (chars moves).length := by omega
    have : maxMemory = 1508 := rfl
    have : charBuffer = 200 := rfl
    have := Program.lt_memorySize (store_mem_code h last) (Op.directCell?_store (by omega))
      (by omega)
    omega

/-- The memory once the text and the number of moves have been stored. -/
def loaded (moves : List Move) (cells : Nat) : Array Word :=
  (fill (Array.replicate cells 0) charBuffer (chars moves)).setIfInBounds charCount
    (.ofNat moves.length)

section

variable {cells : Nat} (le : charBuffer + (chars moves).length ≤ cells) (le_max : cells ≤ maxMemory)

@[simp] theorem size_loaded : (loaded moves cells).size = cells := by simp [loaded]

include le

theorem getElem?_loaded {c : Char} (h : (chars moves)[i]? = some c) :
    (loaded moves cells)[charBuffer + i]? = some (.ofNat c.toNat) := by
  rw [loaded, Array.getElem?_setIfInBounds_ne (by simp only [charCount, charBuffer]; omega)]
  exact getElem?_fill (by rwa [Array.size_replicate]) h

include le_max

theorem run_load :
    (Code.block (storeChars charBuffer (chars moves))
      ++ Code.block [.push (.ofNat moves.length), .store charCount]).run (.fresh cells)
      = some (.goesOn ⟨[], loaded moves cells, #[]⟩) := by
  have size : (Array.replicate cells (0 : Word)).size = cells := Array.size_replicate
  have : maxMemory = 1508 := rfl
  have : charBuffer = 200 := rfl
  have stores : (Code.block (storeChars charBuffer (chars moves))).run (.fresh cells) = _ :=
    congrArg some (runAll_storeChars (by omega) (by omega) [] #[])
  have there : charCount < (fill (Array.replicate cells 0) charBuffer (chars moves)).size := by
    rw [size_fill, size, charCount]
    omega
  rw [Code.run_append stores]
  exact Code.run_push_store _ _ (by decide) there

/-- The program of a list prints its characters. -/
theorem run_code :
    ∃ d, (code moves).run (.fresh cells) = some (.ended d) ∧
      d.output.toList = (chars moves).map String.singleton := by
  have : maxMemory = 1508 := rfl
  have : charBuffer = 200 := rfl
  have there : counter < (loaded moves cells).size := by
    rw [size_loaded, counter]
    omega
  have prints := run_printChars (loaded moves cells) (chars moves) (by omega) there
    fun i c => getElem?_loaded le
  have printed := (Code.run_append (run_load le le_max) _).trans prints
  refine ⟨scene (loaded moves cells) (chars moves) (chars moves).length, ?_, by simp [scene]⟩
  rw [code, Code.run_append printed]
  rfl

end

/-- A text that fits is printed, character by character. -/
theorem execute_program (h : program moves = .ok p)
    (le : (chars moves).length ≤ maxMemory - charBuffer) :
    p.execute = .ok ((chars moves).map String.singleton) := by
  obtain ⟨d, run, output⟩ := run_code (le_memorySize h le) p.memorySize_le_maxMemory
  have small : (code moves).size < 0x8000000000000000 := by
    have : maxMemory = 1508 := rfl
    simp only [code, printChars, Code.size_append, Code.size, length_storeChars, List.length_cons,
      List.length_nil]
    omega
  rw [Code.execute_eq_ok small h run rfl, output]

/-! ## What comes back -/

/-- The moves are read back from the characters that were printed. -/
theorem ofOutput_chars (readable : ∀ m ∈ moves, m.IsReadable) :
    ofOutput ((chars moves).map String.singleton) = .ok moves := by
  have text : (String.join ((chars moves).map String.singleton)).toList = chars moves := by
    simp [String.toList_join, List.flatMap_map]
  have words : Text.words Text.isBlank (chars moves) = moves.map Move.chars :=
    Text.words_intercalate (by decide) (by simp [Move.isWord_chars])
  rw [ofOutput, Text.blankWords, text, words, List.map_map]
  refine mapM_map_eq_ok fun m hm => ?_
  have read : Move.ofText (String.ofList m.chars) = .ok m := Move.ofText_text (readable m hm)
  simp only [Function.comp_apply, read]

/-- A list whose text fits into the memory comes back. -/
theorem stream_of_le (readable : ∀ m ∈ moves, m.IsReadable)
    (le : (chars moves).length ≤ maxMemory - charBuffer) : stream moves = .ok moves := by
  obtain ⟨p, h⟩ : ∃ p, program moves = .ok p := ⟨_, Code.compile_eq _⟩
  have printed := execute_program h le
  simp only [stream, bind, Except.bind, h, printed]
  exact ofOutput_chars readable

/-- The text of a move takes five characters at most, and one for the blank behind it. -/
theorem length_chars_le (moves : List Move) : (chars moves).length ≤ 6 * moves.length := by
  rw [chars]
  induction moves with
  | nil => exact Nat.zero_le _
  | cons m rest ih =>
    have := m.length_chars_le
    cases rest with
    | nil =>
      rw [List.map_singleton, List.intercalate_singleton, List.length_singleton]
      omega
    | cons next rest =>
      rw [List.map_cons] at ih
      rw [List.map_cons, List.map_cons, List.intercalate_cons_cons, List.length_append,
        List.length_append, List.length_singleton, List.length_cons]
      omega

/-- A list within its capacity always fits the buffer. -/
theorem stream_of_length_le (readable : ∀ m ∈ moves, m.IsReadable)
    (le : moves.length ≤ moveCapacity) : stream moves = .ok moves := by
  refine stream_of_le readable ?_
  have := length_chars_le moves
  simp only [maxMemory]
  omega

/-! ## What gets lost -/

/-- A character too many has no cell. -/
theorem runAll_storeChars_of_gt (memory : Array Word) (cell : Nat) (cs : List Char)
    (small : memory.size < 0x8000000000000000)
    (le : cell ≤ memory.size) (gt : memory.size < cell + cs.length) (stack : List Word)
    (output : Array String) :
    Op.runAll (storeChars cell cs) ⟨stack, memory, output⟩
      = .failed (.addressOutOfRange (.ofNat memory.size) memory.size) := by
  -- characters are stored until the cell is the first one that is missing
  induction cs generalizing memory cell with
  | nil => exact absurd gt (Nat.not_lt.2 le)
  | cons c rest ih =>
    rw [List.length_cons] at gt
    rcases Nat.lt_or_eq_of_le le with lt | rfl
    · have stored := Data.put_ofNat (d := ⟨stack, memory, output⟩) (i := cell) (.ofNat c.toNat)
        (by omega) lt
      have size : (memory.setIfInBounds cell (.ofNat c.toNat)).size = memory.size :=
        Array.size_setIfInBounds ..
      simp only [storeChars, Op.runAll, Op.run, Data.push, Data.pop, stored]
      rw [← size]
      exact ih _ _ (by omega) (by omega) (by omega)
    · have missing : ¬ (⟨stack, memory, output⟩ : Data).HasCell (.ofNat memory.size) :=
        mt (Data.hasCell_ofNat small).1 (Nat.lt_irrefl _)
      simp only [storeChars, Op.runAll, Op.run, Data.push, Data.pop, Data.put, if_neg missing]

/-- A list whose text does not fit into the memory is lost. -/
theorem stream_of_gt (gt : maxMemory - charBuffer < (chars moves).length) :
    ∃ ip, stream moves = .error (.addressOutOfRange ip (.ofNat maxMemory) maxMemory) := by
  obtain ⟨p, h⟩ : ∃ p, program moves = .ok p := ⟨_, Code.compile_eq _⟩
  have memory : p.memorySize = maxMemory :=
    Program.memorySize_eq_maxMemory (store_mem_code h gt) (Op.directCell?_store (by decide))
      (by decide)
  have lost : Op.runAll (storeChars charBuffer (chars moves)) (.fresh maxMemory)
      = .failed (.addressOutOfRange (.ofNat maxMemory) maxMemory) := by
    have size : (Array.replicate maxMemory (0 : Word)).size = maxMemory := Array.size_replicate
    have := runAll_storeChars_of_gt (Array.replicate maxMemory 0) charBuffer (chars moves)
      (by rw [size]; decide) (by rw [size]; decide) (by rw [size]; omega) [] #[]
    rwa [size] at this
  have reached := Op.reached_runAll (d := .fresh maxMemory) (fits_storeChars h)
  rw [lost] at reached
  obtain ⟨n, ip, failed⟩ := reached
  have finished := Machine.finish_of_run failed trivial
  have fresh : Machine.fresh maxMemory = (Data.fresh maxMemory).machine 0 := rfl
  have printed : p.execute = .error (.addressOutOfRange ip (.ofNat maxMemory) maxMemory) := by
    rw [Program.execute, memory, fresh, finished]
    rfl
  refine ⟨ip, ?_⟩
  simp only [stream, bind, Except.bind, h, printed]

end MoveList

end ChessMachine
