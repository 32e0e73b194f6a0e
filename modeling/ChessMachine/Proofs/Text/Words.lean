import ChessMachine.Text.Blank

/-!
# Words and blanks

A text has its words in one way only, and words that are joined by single blanks are found again.

## Main definitions

* `Text.IsWord` — a word is not empty and holds no blank.
* `Text.Parted` — how words and blanks make up a text.

## Main results

* `Text.words_intercalate` — the words of joined words.
* `Text.mem_intercalate` — the characters of joined words.
* `Text.words_eq_iff` — which words a text has.
* `Text.strip_concat`, `Text.strip_append_append` — what is trimmed from the ends of a text.
-/
namespace ChessMachine.Text

/-- Not empty, and without a blank. -/
def IsWord (blank : Char → Bool) (word : List Char) : Prop :=
  word ≠ [] ∧ ∀ c ∈ word, blank c = false

variable {blank : Char → Bool} {sep : Char} {word text : List Char} {ws : List (List Char)}

theorem words_nil (blank : Char → Bool) : words blank [] = [] := by simp [words]

theorem words_of_isWord (h : IsWord blank word) : words blank word = [word] := by
  rw [words, List.splitOnP_eq_singleton h.2]
  simp [h.1]

theorem words_append_cons (h : IsWord blank word) (hs : blank sep = true) (text : List Char) :
    words blank (word ++ sep :: text) = word :: words blank text := by
  rw [words, List.splitOnP_append_cons_of_forall_mem h.2 sep hs]
  simp [words, h.1]

/-- Words joined by blanks are found again. -/
theorem words_intercalate (hs : blank sep = true) (h : ∀ w ∈ ws, IsWord blank w) :
    words blank (List.intercalate [sep] ws) = ws := by
  induction ws with
  | nil => exact words_nil blank
  | cons w rest ih =>
    cases rest with
    | nil =>
      rw [List.intercalate_singleton]
      exact words_of_isWord (h w List.mem_cons_self)
    | cons v rest =>
      rw [List.intercalate_cons_cons, List.append_assoc, List.singleton_append,
        words_append_cons (h w List.mem_cons_self) hs,
        ih fun u hu => h u (List.mem_cons_of_mem w hu)]

/-- A text that consists of words, in this order, and blanks. Any two words have a blank between
them. -/
inductive Parted (blank : Char → Bool) : List Char → List (List Char) → Prop where
  | nil : Parted blank [] []
  | blank {c : Char} {text : List Char} {ws : List (List Char)} (space : blank c = true)
    (rest : Parted blank text ws) : Parted blank (c :: text) ws
  | last {word : List Char} (isWord : IsWord blank word) : Parted blank word [word]
  | word {word text : List Char} {c : Char} {ws : List (List Char)} (isWord : IsWord blank word)
    (space : blank c = true) (rest : Parted blank text ws) :
    Parted blank (word ++ c :: text) (word :: ws)

theorem words_cons (hs : blank sep = true) (text : List Char) :
    words blank (sep :: text) = words blank text := by
  have first : (sep :: text).splitOnP blank = [] :: text.splitOnP blank :=
    List.splitOnP_append_cons_of_forall_mem (List.forall_mem_nil _) sep hs text
  simp [words, first]

/-- Whatever blanks part its words, a text is split into them. -/
theorem words_eq_of_parted (h : Parted blank text ws) : words blank text = ws := by
  induction h with
  | nil => exact words_nil blank
  | blank space _ ih => rw [words_cons space, ih]
  | last isWord => exact words_of_isWord isWord
  | word isWord space _ ih => rw [words_append_cons isWord space, ih]

/-- Every text consists of words and blanks. -/
theorem exists_parted (blank : Char → Bool) (text : List Char) : ∃ ws, Parted blank text ws := by
  have isWord {c : Char} {word : List Char} (hc : blank c = false)
      (h : ∀ d ∈ word, blank d = false) : IsWord blank (c :: word) :=
    ⟨nofun, List.forall_mem_cons.2 ⟨hc, h⟩⟩
  induction text with
  | nil => exact ⟨[], .nil⟩
  | cons c rest ih =>
    obtain ⟨ws, parted⟩ := ih
    cases hc : blank c with
    | true => exact ⟨ws, .blank hc parted⟩
    | false =>
      have single : IsWord blank [c] := isWord hc nofun
      -- the character is a word of its own, or belongs to the word that the rest begins with
      cases parted with
      | nil => exact ⟨[[c]], .last single⟩
      | blank space rest => exact ⟨[c] :: ws, .word single space rest⟩
      | last word => exact ⟨[c :: rest], .last (isWord hc word.2)⟩
      | @word w _ _ others word space rest =>
        exact ⟨(c :: w) :: others, .word (isWord hc word.2) space rest⟩

/-- The words of a text are those that make it up. -/
theorem words_eq_iff : words blank text = ws ↔ Parted blank text ws := by
  refine ⟨?_, words_eq_of_parted⟩
  rintro rfl
  obtain ⟨ws, parted⟩ := exists_parted blank text
  exact words_eq_of_parted parted ▸ parted

theorem Parted.concat (hs : blank sep = true) (h : Parted blank text ws) :
    Parted blank (text ++ [sep]) ws := by
  induction h with
  | nil => exact .blank hs .nil
  | blank space _ ih => exact .blank space ih
  | last isWord => exact .word isWord hs .nil
  | word isWord space _ ih =>
    rw [List.append_assoc, List.cons_append]
    exact .word isWord space ih

theorem words_concat (hs : blank sep = true) (text : List Char) :
    words blank (text ++ [sep]) = words blank text :=
  words_eq_of_parted ((words_eq_iff.1 rfl).concat hs)

theorem asciiWords_eq_iff {text : String} {fields : List String} :
    asciiWords text = fields ↔ Parted isAsciiBlank text.toList (fields.map String.toList) := by
  rw [← words_eq_iff, asciiWords]
  constructor
  · rintro rfl
    simp [Function.comp_def]
  · intro h
    simp [h, Function.comp_def]

/-- What joined words consist of. -/
theorem mem_intercalate {c : Char} (h : c ∈ List.intercalate [sep] ws) :
    c = sep ∨ ∃ w ∈ ws, c ∈ w := by
  induction ws with
  | nil => cases h
  | cons w rest ih =>
    cases rest with
    | nil =>
      rw [List.intercalate_singleton] at h
      exact .inr ⟨w, List.mem_cons_self, h⟩
    | cons v rest =>
      rw [List.intercalate_cons_cons, List.mem_append, List.mem_append, List.mem_singleton] at h
      rcases h with (h | rfl) | h
      · exact .inr ⟨w, List.mem_cons_self, h⟩
      · exact .inl rfl
      · refine (ih h).imp_right fun ⟨u, hu, hc⟩ => ⟨u, List.mem_cons_of_mem w hu, hc⟩

/-! ## Ends -/

theorem dropWhile_append (h : IsWord blank word) (text : List Char) :
    (word ++ text).dropWhile blank = word ++ text := by
  obtain ⟨c, rest, rfl⟩ := List.exists_cons_of_ne_nil h.1
  exact List.dropWhile_cons_of_neg (by simp [h.2 c List.mem_cons_self])

/-- Between two words nothing is trimmed. -/
theorem strip_append_append {first last : List Char} (hf : IsWord blank first)
    (hl : IsWord blank last) (text : List Char) :
    strip blank (first ++ text ++ last) = first ++ text ++ last := by
  have backwards : IsWord blank last.reverse :=
    ⟨mt List.reverse_eq_nil_iff.1 hl.1, fun c hc => hl.2 c (List.mem_reverse.1 hc)⟩
  rw [strip, List.append_assoc, dropWhile_append hf, ← List.append_assoc, List.reverse_append,
    dropWhile_append backwards, List.reverse_append, List.reverse_reverse, List.reverse_reverse]

/-- A last blank is trimmed. -/
theorem strip_concat (hs : blank sep = true) (text : List Char) :
    strip blank (text ++ [sep]) = strip blank text := by
  rw [strip, strip, List.dropWhile_append]
  split
  · rename_i blanks
    rw [List.isEmpty_iff.1 blanks, List.dropWhile_cons_of_pos hs, List.dropWhile_nil]
  · rw [List.reverse_append, List.reverse_singleton, List.singleton_append,
      List.dropWhile_cons_of_pos hs]

end ChessMachine.Text
