import ChessMachine.Proofs.Text.Words
import ChessMachine.Text.Lines

/-!
# Texts in bytes

A byte below 128 stands for a character of ASCII wherever it occurs in UTF-8. So a text may be cut
into lines before its bytes are read, and a carriage return at the end of a line does not decide
whether the line can be read.

## Main definitions

* `Text.utf8` — the bytes of a text.

## Main results

* `Text.isValidUTF8_iff`, `Text.fromUTF8?_utf8` — which bytes are read, and as what.
* `Text.mem_utf8_iff`, `Text.utf8_eq_concat_iff` — where a character of ASCII is among them.
* `Text.utf8_intercalate` — the bytes of joined texts.
-/
namespace ChessMachine.Text

def utf8 (text : List Char) : List UInt8 := text.flatMap String.utf8EncodeChar

variable {a c : Char} {text : List Char} {bytes : List UInt8}

theorem utf8_append (text rest : List Char) : utf8 (text ++ rest) = utf8 text ++ utf8 rest :=
  List.flatMap_append

/-! ## Reading bytes -/

theorem toList_loop (bytes : ByteArray) (i : Nat) (read : List UInt8) :
    ByteArray.toList.loop bytes i read = read.reverse ++ bytes.data.toList.drop i := by
  fun_induction ByteArray.toList.loop bytes i read with
  | case1 i read more ih =>
    have bound : i < bytes.data.toList.length := more
    have byte : bytes.get! i = bytes.data.toList[i] := getElem!_pos bytes.data i more
    rw [ih, List.drop_eq_getElem_cons bound, byte, List.reverse_cons, List.append_assoc,
      List.singleton_append]
  | case2 i read done =>
    rw [List.drop_eq_nil_of_le (Nat.le_of_not_lt done), List.append_nil]

theorem toList_bytes (bytes : ByteArray) : bytes.toList = bytes.data.toList :=
  toList_loop bytes 0 []

theorem data_utf8Encode (text : List Char) : text.utf8Encode.data.toList = utf8 text := by
  rw [List.utf8Encode, List.data_toByteArray, utf8]

theorem toList_toUTF8 (text : String) : text.toUTF8.toList = utf8 text.toList := by
  rw [toList_bytes, String.toUTF8_eq_toByteArray, ← String.utf8Encode_toList, data_utf8Encode]

theorem utf8Encode_eq_iff : text.utf8Encode = ⟨bytes.toArray⟩ ↔ bytes = utf8 text := by
  rw [ByteArray.ext_iff, ← Array.toList_inj, data_utf8Encode]
  exact eq_comm

/-- Valid bytes are those of a text. -/
theorem isValidUTF8_iff :
    ByteArray.IsValidUTF8 ⟨bytes.toArray⟩ ↔ ∃ text, bytes = utf8 text := by
  constructor
  · rintro ⟨text, encoded⟩
    exact ⟨text, utf8Encode_eq_iff.1 encoded.symm⟩
  · rintro ⟨text, same⟩
    exact ⟨text, (utf8Encode_eq_iff.2 same).symm⟩

/-- A text is read from its bytes. -/
theorem fromUTF8?_utf8 (text : List Char) :
    String.fromUTF8? ⟨(utf8 text).toArray⟩ = some (String.ofList text) := by
  have encoded : (String.ofList text).toByteArray = ⟨(utf8 text).toArray⟩ := by
    rw [String.toByteArray_ofList, utf8Encode_eq_iff]
  rw [← encoded]
  unfold String.fromUTF8?
  rw [dif_pos (String.ofList text).isValidUTF8]
  rfl

theorem fromUTF8?_eq_none_iff :
    String.fromUTF8? ⟨bytes.toArray⟩ = none ↔ ¬ ByteArray.IsValidUTF8 ⟨bytes.toArray⟩ := by
  unfold String.fromUTF8?
  split <;> simp_all

/-! ## Characters of ASCII -/

theorem toNat_toUInt8 (ascii : a.toNat < 128) : a.toUInt8.toNat = a.toNat := by
  show a.toNat % 256 = a.toNat
  omega

theorem utf8EncodeChar_of_ascii (ascii : a.toNat < 128) :
    String.utf8EncodeChar a = [a.toUInt8] := if_pos (Nat.le_of_lt_succ ascii)

theorem le_of_mem_utf8EncodeChar (large : 128 ≤ c.toNat) {b : UInt8}
    (h : b ∈ String.utf8EncodeChar c) : 128 ≤ b.toNat := by
  have byte {n : Nat} (lo : 128 ≤ n) (hi : n < 256) : 128 ≤ (UInt8.ofNat n).toNat := by
    rwa [UInt8.toNat_ofNat', Nat.mod_eq_of_lt hi]
  have more : ¬ c.val.toNat ≤ 127 := Nat.not_le_of_lt large
  rw [String.utf8EncodeChar, if_neg more] at h
  -- two, three or four bytes, and the first bit of each is set
  split at h
  · simp only [List.mem_cons, List.not_mem_nil, or_false] at h
    rcases h with rfl | rfl <;> exact byte (by omega) (by omega)
  · split at h
    · simp only [List.mem_cons, List.not_mem_nil, or_false] at h
      rcases h with rfl | rfl | rfl <;> exact byte (by omega) (by omega)
    · simp only [List.mem_cons, List.not_mem_nil, or_false] at h
      rcases h with rfl | rfl | rfl | rfl <;> exact byte (by omega) (by omega)

/-- The byte of a character of ASCII is in the bytes of no other character. -/
theorem eq_of_mem_utf8EncodeChar (ascii : a.toNat < 128)
    (h : a.toUInt8 ∈ String.utf8EncodeChar c) : c = a := by
  by_cases small : c.toNat < 128
  · rw [utf8EncodeChar_of_ascii small, List.mem_singleton] at h
    have same := congrArg UInt8.toNat h
    rw [toNat_toUInt8 ascii, toNat_toUInt8 small] at same
    exact Char.toNat_inj.1 same.symm
  · have large := le_of_mem_utf8EncodeChar (Nat.le_of_not_lt small) h
    rw [toNat_toUInt8 ascii] at large
    omega

/-- The byte of an ASCII character stands for that character only. -/
theorem mem_utf8_iff (ascii : a.toNat < 128) : a.toUInt8 ∈ utf8 text ↔ a ∈ text := by
  rw [utf8, List.mem_flatMap]
  constructor
  · rintro ⟨c, mem, h⟩
    exact eq_of_mem_utf8EncodeChar ascii h ▸ mem
  · intro mem
    exact ⟨a, mem, by rw [utf8EncodeChar_of_ascii ascii]; exact List.mem_singleton_self _⟩

theorem utf8_concat (ascii : a.toNat < 128) (text : List Char) :
    utf8 (text ++ [a]) = utf8 text ++ [a.toUInt8] := by
  have single : utf8 [a] = [a.toUInt8] := by
    rw [utf8, List.flatMap_singleton, utf8EncodeChar_of_ascii ascii]
  rw [utf8_append, single]

/-- It is the last byte only if the character is the last one. -/
theorem utf8_eq_concat_iff (ascii : a.toNat < 128) :
    utf8 text = bytes ++ [a.toUInt8] ↔ ∃ front, text = front ++ [a] ∧ bytes = utf8 front := by
  constructor
  · intro h
    obtain rfl | ⟨front, c, rfl⟩ := text.eq_nil_or_concat
    · exact absurd h (by simp [utf8])
    rw [List.concat_eq_append] at h ⊢
    have last : c = a := by
      have byte := congrArg List.getLast? h
      rw [utf8_append, utf8, utf8, List.flatMap_singleton, List.getLast?_append,
        List.getLast?_concat, Option.or_eq_some_iff] at byte
      rcases byte with last | ⟨empty, -⟩
      · exact eq_of_mem_utf8EncodeChar ascii (List.mem_of_getLast? last)
      · exact absurd (List.getLast?_eq_none_iff.1 empty) String.utf8EncodeChar_ne_nil
    obtain rfl := last
    rw [utf8_concat ascii] at h
    exact ⟨front, rfl, (List.append_inj_left' h rfl).symm⟩
  · rintro ⟨front, rfl, rfl⟩
    exact utf8_concat ascii front

/-- Texts joined by an ASCII character have their bytes joined by its byte. -/
theorem utf8_intercalate (ascii : a.toNat < 128) (texts : List (List Char)) :
    utf8 (List.intercalate [a] texts) = List.intercalate [a.toUInt8] (texts.map utf8) := by
  induction texts with
  | nil => rfl
  | cons text rest ih =>
    cases rest with
    | nil => simp
    | cons next rest =>
      rw [List.map_cons] at ih
      rw [List.intercalate_cons_cons, List.map_cons, List.map_cons, List.intercalate_cons_cons,
        utf8_append, utf8_concat ascii, ih]

end ChessMachine.Text
