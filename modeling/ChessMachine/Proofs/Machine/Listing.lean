import ChessMachine.Machine.Assembly
import ChessMachine.Proofs.Text.Lines
import ChessMachine.Proofs.Text.Numeral
import ChessMachine.Proofs.Text.Words
import Mathlib.Data.List.Forall2
import Mathlib.Data.List.TakeWhile

/-!
# Listings

A program is read back from its listing. Every line of a listing is made of tokens parted by
single blanks: the number with its colon, the mnemonic, and the operand if there is one.

## Main definitions

* `Instruction.lineTokens` — the tokens of a line.

## Main results

* `Instruction.ofLine_lineTokens` — an instruction is read back from its line.
* `Instruction.ofLines_eq_ok` — lines that are read one by one are read together.
* `Program.assemble_listing` — a program is read back from its listing.
-/
namespace ChessMachine

/-- Every opcode is read back from its mnemonic. -/
theorem Opcode.ofMnemonic?_mnemonic (op : Opcode) : ofMnemonic? op.mnemonic = some op := by
  cases op <;> decide

namespace Instruction

/-! ## Tokens -/

/-- A character that neither parts tokens nor begins a comment. -/
def IsTokenChar (c : Char) : Prop := Text.isAsciiBlank c = false ∧ c ≠ ';'

instance (c : Char) : Decidable (IsTokenChar c) := inferInstanceAs (Decidable (_ ∧ _))

def IsToken (token : List Char) : Prop := token ≠ [] ∧ ∀ c ∈ token, IsTokenChar c

variable {c : Char} {token line : List Char} {tokens : List (List Char)}

theorem IsToken.isWord (h : IsToken token) : Text.IsWord Text.isAsciiBlank token :=
  ⟨h.1, fun c hc => (h.2 c hc).1⟩

theorem isTokenChar_of_isDigit (h : c.isDigit = true) : IsTokenChar c := by
  have ne (d : Char) (other : d.isDigit = false) : c ≠ d := by
    rintro rfl
    rw [h] at other
    cases other
  simp [IsTokenChar, Text.isAsciiBlank, ne ' ' rfl, ne '\t' rfl, ne '\n' rfl, ne '\x0c' rfl,
    ne '\r' rfl, ne ';' rfl]

theorem isToken_mnemonic (op : Opcode) : IsToken op.mnemonic.toList := by
  have chars : op.mnemonic.toList.all (fun c => decide (IsTokenChar c)) = true := by
    cases op <;> decide
  refine ⟨by cases op <;> decide, fun c hc => ?_⟩
  exact of_decide_eq_true (List.all_eq_true.1 chars c hc)

theorem isToken_toString (w : Word) : IsToken (toString w).toList := by
  refine ⟨Text.toString_ne_nil w.val, fun c hc => ?_⟩
  rcases Text.eq_or_isDigit_of_mem_toString hc with rfl | digit
  · decide
  · exact isTokenChar_of_isDigit digit

theorem isToken_number (index : Nat) : IsToken ((Text.padded 4 index).toList ++ [':']) := by
  refine ⟨by simp, fun c hc => ?_⟩
  rcases List.mem_append.1 hc with digit | colon
  · exact isTokenChar_of_isDigit (Text.isDigit_of_mem_padded digit)
  · exact List.mem_singleton.1 colon ▸ by decide

/-! ## Lines -/

def lineTokens (index : Nat) (inst : Instruction) : List (List Char) :=
  ((Text.padded 4 index).toList ++ [':']) :: inst.opcode.mnemonic.toList ::
    (inst.operand.map fun w => (toString w).toList).toList

/-- No token of a listing contains a blank or begins a comment. -/
theorem isToken_of_mem_lineTokens {index : Nat} {inst : Instruction}
    (h : token ∈ lineTokens index inst) : IsToken token := by
  simp only [lineTokens, List.mem_cons, Option.mem_toList, Option.map_eq_some_iff] at h
  rcases h with rfl | rfl | ⟨w, -, rfl⟩
  · exact isToken_number index
  · exact isToken_mnemonic inst.opcode
  · exact isToken_toString w

/-- A line of a listing in its tokens. -/
theorem toList_listingLine (index : Nat) (inst : Instruction) :
    (Program.listingLine index inst).toList
      = List.intercalate [' '] (lineTokens index inst) ++ ['\n'] := by
  have line : Program.listingLine index inst
      = Text.padded 4 index ++ ": " ++ inst.text ++ "\n" := rfl
  obtain ⟨op, operand⟩ := inst
  rw [line]
  cases operand with
  | none => simp [text, lineTokens, List.intercalate]
  | some w =>
    have both : text ⟨op, some w⟩ = op.mnemonic ++ " " ++ toString w := rfl
    simp [both, lineTokens, List.intercalate]

theorem ne_of_mem_intercalate (h : ∀ token ∈ tokens, IsToken token)
    (hc : c ∈ List.intercalate [' '] tokens) : c ≠ ';' ∧ c ≠ '\n' ∧ c ≠ '\r' := by
  rcases Text.mem_intercalate hc with rfl | ⟨token, mem, hc⟩
  · decide
  · obtain ⟨blank, comment⟩ := (h token mem).2 c hc
    refine ⟨comment, ?_, ?_⟩
    all_goals
      rintro rfl
      cases blank

/-- The tokens of a line are found again, without its number. -/
theorem tokens_intercalate (h : ∀ token ∈ tokens, IsToken token) :
    Instruction.tokens (List.intercalate [' '] tokens)
      = dropNumber (tokens.map String.ofList) := by
  have whole : (List.intercalate [' '] tokens).takeWhile (· != ';')
      = List.intercalate [' '] tokens :=
    List.takeWhile_eq_self_iff.2 fun c hc => bne_iff_ne.2 (ne_of_mem_intercalate h hc).1
  rw [Instruction.tokens, whole, Text.asciiWords, String.toList_ofList,
    Text.words_intercalate rfl fun token mem => (h token mem).isWord]

/-- An instruction is read back from its line, whatever number the line has. -/
theorem ofLine_lineTokens (number index : Nat) (inst : Instruction) :
    ofLine number (List.intercalate [' '] (lineTokens index inst)) = .ok (some inst) := by
  have colon : (String.ofList ((Text.padded 4 index).toList ++ [':'])).toList.getLast?
      = some ':' := by
    rw [String.toList_ofList, List.getLast?_concat]
  obtain ⟨op, operand⟩ := inst
  rw [ofLine, tokens_intercalate fun token => isToken_of_mem_lineTokens]
  cases operand with
  | none =>
    simp only [lineTokens, Option.map_none, Option.toList_none, List.map_cons, List.map_nil,
      dropNumber, if_pos colon, String.ofList_toList, Opcode.ofMnemonic?_mnemonic, ofOperands]
    rfl
  | some w =>
    simp only [lineTokens, Option.map_some, Option.toList_some, List.map_cons, List.map_nil,
      dropNumber, if_pos colon, String.ofList_toList, Opcode.ofMnemonic?_mnemonic, ofOperands,
      Text.word?_toString]
    rfl

/-- What is written for an instruction is one line. -/
theorem isLine_intercalate (index : Nat) (inst : Instruction) :
    Text.IsLine '\n' '\r' (List.intercalate [' '] (lineTokens index inst)) := by
  have ne {c : Char} (h : c ∈ List.intercalate [' '] (lineTokens index inst)) :=
    ne_of_mem_intercalate (fun _ => isToken_of_mem_lineTokens) h
  exact ⟨fun h => (ne h).2.1 rfl, fun h => (ne (List.mem_of_getLast? h)).2.2 rfl⟩

/-- Lines that are read one by one are read together, in their order. -/
theorem ofLines_eq_ok {lines : List (List Char)} {insts : List Instruction}
    (read : List.Forall₂ (fun line inst => ∀ number, ofLine number line = .ok (some inst))
      lines insts) (number : Nat) : ofLines number lines = .ok insts := by
  induction read generalizing number with
  | nil => rfl
  | cons first _ ih =>
    rw [ofLines, first, ih]
    rfl

end Instruction

namespace Program

open Instruction (lineTokens)

def listedLines (insts : List Instruction) : List (List Char) :=
  insts.mapIdx fun index inst => List.intercalate [' '] (lineTokens index inst)

/-- A listing is made of its lines, each with a line feed behind it. -/
theorem toList_listing (p : Program) :
    p.listing.toList = (listedLines p.code.toList).flatMap (· ++ ['\n']) := by
  simp only [listing, listedLines, String.toList_join, List.mapIdx_eq_zipIdx_map, List.flatMap_map,
    Instruction.toList_listingLine]

theorem isLine_of_mem_listedLines {insts : List Instruction} {line : List Char}
    (h : line ∈ listedLines insts) : Text.IsLine '\n' '\r' line := by
  obtain ⟨index, lt, rfl⟩ := List.mem_mapIdx.1 h
  exact Instruction.isLine_intercalate index _

/-- Each line of a listing is read as its instruction, wherever the line is. -/
theorem forall₂_listedLines (insts : List Instruction) :
    List.Forall₂ (fun line inst => ∀ number, Instruction.ofLine number line = .ok (some inst))
      (listedLines insts) insts := by
  refine List.forall₂_iff_get.2 ⟨List.length_mapIdx, fun i h₁ h₂ number => ?_⟩
  simp only [listedLines, List.get_eq_getElem, List.getElem_mapIdx]
  exact Instruction.ofLine_lineTokens number i insts[i]

/-- A program is read back from its listing, and so a text that describes a program may be replaced
by the listing of that program. -/
theorem assemble_listing : (∀ p : Program, assemble p.listing = .ok p) ∧
    ∀ source, (assemble source >>= fun p => assemble p.listing) = assemble source := by
  have back (p : Program) : assemble p.listing = .ok p := by
    rw [assemble, toList_listing, Text.lines_flatMap fun _ => isLine_of_mem_listedLines,
      Instruction.ofLines_eq_ok (forall₂_listedLines p.code.toList)]
    rfl
  -- a text that is refused is refused as before, and any other gives a program
  refine ⟨back, fun source => ?_⟩
  cases h : assemble source with
  | error f => rfl
  | ok p => exact back p

/-- Numbers have at least four digits, and the smallest word has a numeral like every other. -/
example : listingLine 12345 ⟨.push, some (Word.saturate (-0x8000000000000000))⟩
    = "12345: PUSH -9223372036854775808\n" := rfl

end Program

end ChessMachine
