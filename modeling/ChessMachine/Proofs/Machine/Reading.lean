import ChessMachine.Machine.Assembly
import ChessMachine.Proofs.Machine.Listing
import ChessMachine.Proofs.Rules.Failure
import ChessMachine.Proofs.Text.Letters
import ChessMachine.Proofs.Text.Lines
import ChessMachine.Proofs.Text.Numeral
import ChessMachine.Proofs.Text.Words
import Mathlib.Data.List.Forall2
import Mathlib.Data.List.TakeWhile

/-!
# Reading assembly

What a text of assembly says, line by line, and what is wrong with a line that says nothing. The
reader agrees with both, so that it accepts a text exactly if every line says something, and names
the first line that does not otherwise.

## Main definitions

* `Opcode.IsNamed` — the names of an operation.
* `Instruction.HasTokens` — the tokens of a line, without its comment and its number.
* `Instruction.Denotes`, `Instruction.Offends` — what a line denotes, or why it does not.

## Main results

* `Instruction.ofLine_eq_ok_iff`, `Instruction.ofLine_eq_error_iff` — how a line is read.
* `Program.assemble_iff_denotes` — how a text is read.
-/
namespace ChessMachine

/-! ## Names of operations -/

namespace Opcode

/-- The mnemonic, with each of its letters in either case. -/
def IsNamed (op : Opcode) (text : String) : Prop :=
  List.Forall₂ (fun c letter => c = letter ∨ c = letter.toLower) text.toList op.mnemonic.toList

variable {op : Opcode} {text : String}

theorem forall₂_iff_map_toLower {letters : List Char}
    (upper : ∀ l ∈ letters, l.toLower.toUpper = l ∧ l.toLower.toLower = l.toLower)
    (chars : List Char) :
    List.Forall₂ (fun c letter => c = letter ∨ c = letter.toLower) chars letters ↔
      letters.map Char.toLower = chars.map Char.toLower := by
  induction letters generalizing chars with
  | nil => cases chars <;> simp
  | cons letter rest ih =>
    obtain ⟨first, later⟩ := List.forall_mem_cons.1 upper
    cases chars with
    | nil => simp
    | cons c cs =>
      rw [List.forall₂_cons, ih later, ← Text.toLower_eq_toLower_iff first.1 first.2, List.map_cons,
        List.map_cons, List.cons.injEq, eq_comm (a := c.toLower)]

/-- A text names an opcode if the two agree in lower case. -/
theorem isNamed_iff : op.IsNamed text ↔
    op.mnemonic.toList.map Char.toLower = text.toList.map Char.toLower := by
  have upper : op.mnemonic.toList.all
      (fun l => l.toLower.toUpper = l ∧ l.toLower.toLower = l.toLower) = true := by
    cases op <;> decide
  exact forall₂_iff_map_toLower
    (fun l mem => of_decide_eq_true (List.all_eq_true.1 upper l mem)) text.toList

/-- An operation is found by its names. -/
theorem ofMnemonic?_eq_some_iff : ofMnemonic? text = some op ↔ op.IsNamed text := by
  rw [isNamed_iff]
  constructor
  · intro found
    have same := List.find?_some found
    exact eq_of_beq same
  · intro same
    rw [← ofMnemonic?_mnemonic op, ofMnemonic?, ofMnemonic?, same]

theorem ofMnemonic?_eq_none_iff : ofMnemonic? text = none ↔ ∀ op, ¬ IsNamed op text := by
  simp only [Option.eq_none_iff_forall_ne_some, ne_eq, ofMnemonic?_eq_some_iff]

end Opcode

namespace Instruction

variable {number : Nat} {line : List Char} {tokens : List String}

/-! ## Tokens -/

/-- What stands before the first semicolon of a line. -/
def IsCode (line code : List Char) : Prop :=
  ';' ∉ code ∧ (line = code ∨ ∃ comment, line = code ++ ';' :: comment)

/-- The tokens that are left without a first one that ends in a colon. -/
inductive Unnumbered : List String → List String → Prop where
  | nil : Unnumbered [] []
  | number {token : String} {rest : List String} (colon : token.toList.getLast? = some ':') :
    Unnumbered (token :: rest) rest
  | bare {token : String} {rest : List String} (colon : token.toList.getLast? ≠ some ':') :
    Unnumbered (token :: rest) (token :: rest)

/-- The tokens of a line, without its comment and its number. -/
def HasTokens (line : List Char) (tokens : List String) : Prop :=
  ∃ code words, IsCode line code ∧
    Text.Parted Text.isAsciiBlank code (words.map String.toList) ∧ Unnumbered words tokens

theorem takeWhile_eq_iff {code : List Char} :
    line.takeWhile (· != ';') = code ↔ IsCode line code := by
  constructor
  · rintro rfl
    refine ⟨fun mem => by simpa using List.mem_takeWhile_imp mem, ?_⟩
    have whole := List.takeWhile_append_dropWhile (p := (· != ';')) (l := line)
    cases rest : line.dropWhile (· != ';') with
    | nil => exact .inl (by rw [rest, List.append_nil] at whole; exact whole.symm)
    | cons c comment =>
      have semicolon : c = ';' := by
        have first := List.head?_dropWhile_not (· != ';') line
        simpa [rest] using first
      exact .inr ⟨comment, by rw [rest, semicolon] at whole; exact whole.symm⟩
  · rintro ⟨bare, ends⟩
    have before {c : Char} (mem : c ∈ code) : (c != ';') = true := by
      refine bne_iff_ne.2 ?_
      rintro rfl
      exact bare mem
    rcases ends with rfl | ⟨comment, rfl⟩
    · exact List.takeWhile_eq_self_iff.2 fun c mem => before mem
    · rw [List.takeWhile_append_of_pos fun c mem => before mem]
      simp

theorem dropNumber_eq_iff {words : List String} :
    dropNumber words = tokens ↔ Unnumbered words tokens := by
  cases words with
  | nil =>
    constructor
    · rintro rfl
      exact .nil
    · rintro ⟨⟩
      rfl
  | cons token rest =>
    rw [dropNumber]
    constructor
    · rintro rfl
      split
      · exact .number ‹_›
      · exact .bare ‹_›
    · rintro (_ | colon | colon)
      · exact if_pos colon
      · exact if_neg colon

/-- The reader finds the tokens of a line. -/
theorem tokens_eq_iff : Instruction.tokens line = tokens ↔ HasTokens line tokens := by
  have reads (code : List Char) (words : List String) :
      Text.asciiWords (String.ofList code) = words ↔
        Text.Parted Text.isAsciiBlank code (words.map String.toList) := by
    rw [Text.asciiWords_eq_iff, String.toList_ofList]
  rw [Instruction.tokens, dropNumber_eq_iff]
  constructor
  · intro rest
    exact ⟨_, _, takeWhile_eq_iff.1 rfl, (reads _ _).1 rfl, rest⟩
  · rintro ⟨code, words, isCode, parted, rest⟩
    rwa [takeWhile_eq_iff.2 isCode, (reads code words).2 parted]

/-! ## Lines -/

/-- What a line says: nothing if it is blank, or an instruction, whose operand is a word. -/
inductive Denotes (line : List Char) : Option Instruction → Prop where
  | blank (tokens : HasTokens line []) : Denotes line none
  | plain {name : String} {op : Opcode} (tokens : HasTokens line [name]) (named : op.IsNamed name) :
    Denotes line (some ⟨op, none⟩)
  | operand {name numeral : String} {op : Opcode} {w : Word}
    (tokens : HasTokens line [name, numeral]) (named : op.IsNamed name)
    (value : Text.IsSignedNumeral w.val numeral.toList) : Denotes line (some ⟨op, some w⟩)

/-- The fault of a line that says nothing: the name comes first, then its operand, then whatever
follows that. -/
inductive Offends (number : Nat) (line : List Char) : Fault → Prop where
  | name {name : String} {rest : List String} (tokens : HasTokens line (name :: rest))
    (unknown : ∀ op, ¬ Opcode.IsNamed op name) : Offends number line (.unknownOpcode number name)
  | operand {name numeral : String} {rest : List String} {op : Opcode}
    (tokens : HasTokens line (name :: numeral :: rest)) (named : op.IsNamed name)
    (wrong : ∀ w : Word, ¬ Text.IsSignedNumeral w.val numeral.toList) :
    Offends number line (.invalidOperand number numeral)
  | extra {name numeral extra : String} {rest : List String} {op : Opcode} {w : Word}
    (tokens : HasTokens line (name :: numeral :: extra :: rest)) (named : op.IsNamed name)
    (value : Text.IsSignedNumeral w.val numeral.toList) :
    Offends number line (.invalidOperand number extra)

/-- A line that says something is read as that. -/
theorem ofLine_of_denotes {said : Option Instruction} (h : Denotes line said) :
    ofLine number line = .ok said := by
  cases h with
  | blank tokens => rw [ofLine, tokens_eq_iff.2 tokens]
  | plain tokens named =>
    rw [ofLine, tokens_eq_iff.2 tokens]
    simp only [Opcode.ofMnemonic?_eq_some_iff.2 named]
    rfl
  | operand tokens named value =>
    rw [ofLine, tokens_eq_iff.2 tokens]
    simp only [Opcode.ofMnemonic?_eq_some_iff.2 named, ofOperands,
      Text.word?_eq_some_iff.2 value]
    rfl

/-- A line that says nothing is reported for its fault. -/
theorem ofLine_of_offends {f : Fault} (h : Offends number line f) :
    ofLine number line = .error f := by
  cases h with
  | name tokens unknown =>
    rw [ofLine, tokens_eq_iff.2 tokens]
    simp only [Opcode.ofMnemonic?_eq_none_iff.2 unknown]
  | @operand _ numeral _ _ tokens named wrong =>
    have refused : Text.word? numeral = none := by
      simpa only [Option.eq_none_iff_forall_ne_some, ne_eq, Text.word?_eq_some_iff] using wrong
    rw [ofLine, tokens_eq_iff.2 tokens]
    simp only [Opcode.ofMnemonic?_eq_some_iff.2 named, ofOperands, refused]
    rfl
  | extra tokens named value =>
    rw [ofLine, tokens_eq_iff.2 tokens]
    simp only [Opcode.ofMnemonic?_eq_some_iff.2 named, ofOperands,
      Text.word?_eq_some_iff.2 value]
    rfl

/-- Every line says something or offends, and the cases are those of the reader. -/
theorem denotes_or_offends (number : Nat) (line : List Char) :
    (∃ said, Denotes line said) ∨ ∃ f, Offends number line f := by
  have tokens := tokens_eq_iff.1 (Eq.refl (Instruction.tokens line))
  cases h : Instruction.tokens line with
  | nil => exact .inl ⟨none, .blank (h ▸ tokens)⟩
  | cons name operands =>
    rw [h] at tokens
    cases read : Opcode.ofMnemonic? name with
    | none => exact .inr ⟨_, .name tokens (Opcode.ofMnemonic?_eq_none_iff.1 read)⟩
    | some op =>
      have named := Opcode.ofMnemonic?_eq_some_iff.1 read
      cases operands with
      | nil => exact .inl ⟨_, .plain tokens named⟩
      | cons numeral rest =>
        by_cases value : ∃ w : Word, Text.IsSignedNumeral w.val numeral.toList
        · obtain ⟨w, value⟩ := value
          cases rest with
          | nil => exact .inl ⟨_, .operand tokens named value⟩
          | cons extra rest => exact .inr ⟨_, .extra tokens named value⟩
        · exact .inr ⟨_, .operand tokens named (not_exists.1 value)⟩

/-- A line is read as what it says, and as nothing else. -/
theorem ofLine_eq_ok_iff {said : Option Instruction} :
    ofLine number line = .ok said ↔ Denotes line said := by
  refine ⟨fun read => ?_, ofLine_of_denotes⟩
  rcases denotes_or_offends number line with ⟨other, denotes⟩ | ⟨f, offends⟩
  · rw [ofLine_of_denotes denotes] at read
    exact Except.ok.inj read ▸ denotes
  · rw [ofLine_of_offends offends] at read
    cases read

/-- A line is reported for its own fault, and for no other. -/
theorem ofLine_eq_error_iff {f : Fault} :
    ofLine number line = .error f ↔ Offends number line f := by
  refine ⟨fun read => ?_, ofLine_of_offends⟩
  rcases denotes_or_offends number line with ⟨other, denotes⟩ | ⟨g, offends⟩
  · rw [ofLine_of_denotes denotes] at read
    cases read
  · rw [ofLine_of_offends offends] at read
    exact Except.error.inj read ▸ offends

/-! ## Texts -/

variable {ls : List (List Char)}

theorem exists_forall₂_denotes_iff :
    (∃ said, List.Forall₂ Denotes ls said) ↔ ∀ line ∈ ls, ∃ said, Denotes line said := by
  induction ls with
  | nil => exact iff_of_true ⟨[], .nil⟩ (List.forall_mem_nil _)
  | cons line rest ih =>
    simp only [List.forall_mem_cons, ← ih, List.forall₂_cons_left_iff]
    constructor
    · rintro ⟨_, first, others, denotes, later, rfl⟩
      exact ⟨⟨first, denotes⟩, others, later⟩
    · rintro ⟨⟨first, denotes⟩, others, later⟩
      exact ⟨_, first, others, denotes, later, rfl⟩

/-- Lines that all say something are read, and blank ones leave no instruction. -/
theorem ofLines_eq_ok_iff {insts : List Instruction} : ofLines number ls = .ok insts ↔
    ∃ said, List.Forall₂ Denotes ls said ∧ insts = said.filterMap id := by
  induction ls generalizing number insts with
  | nil =>
    constructor
    · intro read
      exact ⟨[], .nil, (Except.ok.inj read).symm⟩
    · rintro ⟨_, ⟨⟩, rfl⟩
      rfl
  | cons line rest ih =>
    simp only [ofLines, bind_eq_ok_iff, pure_eq_ok_iff, ofLine_eq_ok_iff, ih,
      List.forall₂_cons_left_iff]
    constructor
    · rintro ⟨first, denotes, _, ⟨others, later, rfl⟩, rfl⟩
      exact ⟨_, ⟨first, others, denotes, later, rfl⟩, by cases first <;> rfl⟩
    · rintro ⟨_, ⟨first, others, denotes, later, rfl⟩, rfl⟩
      exact ⟨first, denotes, _, ⟨others, later, rfl⟩, by cases first <;> rfl⟩

/-- The first line that says nothing is the one that is named. -/
theorem ofLines_eq_error_iff {f : Fault} : ofLines number ls = .error f ↔
    ∃ before line after, ls = before ++ line :: after ∧
      (∀ l ∈ before, ∃ said, Denotes l said) ∧ Offends (number + before.length) line f := by
  induction ls generalizing number with
  | nil => simp [ofLines]
  | cons line rest ih =>
    simp only [ofLines, bind_eq_error_iff, ofLine_eq_ok_iff, ofLine_eq_error_iff, ih]
    constructor
    · rintro (offends | ⟨first, denotes, ⟨before, bad, after, rfl, earlier, offends⟩ | ⟨_, -, ⟨⟩⟩⟩)
      · exact ⟨[], line, rest, rfl, List.forall_mem_nil _, offends⟩
      · refine ⟨line :: before, bad, after, rfl, ?_, ?_⟩
        · exact List.forall_mem_cons.2 ⟨⟨first, denotes⟩, earlier⟩
        · rwa [List.length_cons, ← Nat.add_assoc, Nat.add_right_comm]
    · rintro ⟨before, bad, after, split, earlier, offends⟩
      cases before with
      | nil =>
        obtain ⟨rfl, rfl⟩ := List.cons.inj split
        exact .inl offends
      | cons l before =>
        obtain ⟨rfl, rfl⟩ := List.cons.inj split
        obtain ⟨⟨first, denotes⟩, earlier⟩ := List.forall_mem_cons.1 earlier
        rw [List.length_cons, ← Nat.add_assoc, Nat.add_right_comm] at offends
        exact .inr ⟨first, denotes, .inl ⟨before, bad, after, rfl, earlier, offends⟩⟩

end Instruction

namespace Program

open Instruction (Denotes Offends exists_forall₂_denotes_iff ofLines_eq_ok_iff ofLines_eq_error_iff)

/-- A text is read exactly if each of its lines says something; then the program has what they say,
in their order. Otherwise the first line that says nothing is named with its fault. -/
theorem assemble_iff_denotes (source : String) :
    ∃ ls, Text.Broken '\n' '\r' source.toList ls ∧
      ((∃ p, assemble source = .ok p) ↔ ∀ line ∈ ls, ∃ said, Denotes line said) ∧
      (∀ p, assemble source = .ok p ↔
        ∃ said, List.Forall₂ Denotes ls said ∧ p.code.toList = said.filterMap id) ∧
      ∀ f, assemble source = .error f ↔
        ∃ before line after, ls = before ++ line :: after ∧
          (∀ l ∈ before, ∃ said, Denotes l said) ∧ Offends (before.length + 1) line f := by
  have ok (p : Program) : assemble source = .ok p ↔ ∃ said,
      List.Forall₂ Denotes (Text.lines '\n' '\r' source.toList) said ∧
        p.code.toList = said.filterMap id := by
    simp only [assemble, bind_eq_ok_iff, ofLines_eq_ok_iff, pure_eq_ok_iff]
    constructor
    · rintro ⟨_, ⟨said, denote, rfl⟩, rfl⟩
      exact ⟨said, denote, rfl⟩
    · rintro ⟨said, denote, code⟩
      exact ⟨_, ⟨said, denote, rfl⟩, by rw [← code]⟩
  refine ⟨_, (Text.lines_eq_iff (by decide)).1 rfl, ?_, ok, fun f => ?_⟩
  · rw [← exists_forall₂_denotes_iff]
    constructor
    · rintro ⟨p, read⟩
      obtain ⟨said, denote, -⟩ := (ok p).1 read
      exact ⟨said, denote⟩
    · rintro ⟨said, denote⟩
      exact ⟨⟨(said.filterMap id).toArray⟩, (ok _).2 ⟨said, denote, rfl⟩⟩
  · simp only [assemble, bind_eq_error_iff, ofLines_eq_error_iff, Nat.add_comm 1]
    constructor
    · rintro (offends | ⟨_, -, ⟨⟩⟩)
      exact offends
    · exact .inl

/-- A line may have a number only, and counts; the second operand is noticed after the first. -/
example : assemble "0: Push +7 ; one\r\n0:\n1: print 1 2" = .error (.invalidOperand 3 "2") := rfl

end Program

end ChessMachine
