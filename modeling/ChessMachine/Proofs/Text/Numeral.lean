import ChessMachine.Text.Numeral

/-!
# Numerals

Words and counters are read back from their decimal numerals.

## Main definitions

* `Text.IsNumeral`, `Text.IsSignedNumeral` — the numerals of a counter and of a word.

## Main results

* `Text.natural?_toDigits`, `Text.integer?_toString` — a number is read from its numeral.
* `Text.word?_toString`, `Text.counter?_toDigits` — and so is a word or a counter.
* `Text.counter?_eq_some_iff`, `Text.word?_eq_some_iff` — no other numerals are read.
* `Text.eq_or_isDigit_of_mem_toString`, `Text.isDigit_of_mem_padded` — the characters of numerals.
-/
namespace ChessMachine.Text

theorem digits?_toDigits (n : Nat) : digits? (Nat.toDigits 10 n) = some n := by
  have digits : (Nat.toDigits 10 n).all Char.isDigit = true :=
    List.all_eq_true.2 fun _ hc => Nat.isDigit_of_mem_toDigits (by decide) (by decide) hc
  simp [digits?, digits, Nat.toDigits_ne_nil, Nat.ofDigitChars_toDigits]

/-- A numeral that starts with a digit has no sign. -/
theorem ne_cons_of_not_isDigit {sign : Char} (h : sign.isDigit = false) (n : Nat)
    (rest : List Char) : Nat.toDigits 10 n ≠ sign :: rest := by
  intro same
  have first : sign ∈ Nat.toDigits 10 n := same ▸ List.mem_cons_self
  have digit : sign.isDigit = true := Nat.isDigit_of_mem_toDigits (by decide) (by decide) first
  exact absurd digit (by simp [h])

theorem natural?_toDigits (n : Nat) : natural? (Nat.toDigits 10 n) = some n := by
  rw [natural?]
  · exact digits?_toDigits n
  · exact ne_cons_of_not_isDigit rfl n

theorem integer?_toDigits (n : Nat) : integer? (Nat.toDigits 10 n) = some (n : Int) := by
  rw [integer?, natural?_toDigits]
  · rfl
  · exact ne_cons_of_not_isDigit rfl n

/-- An integer is read back from its decimal text. -/
theorem integer?_toString (n : Int) : integer? (toString n).toList = some n := by
  rw [Int.toString_eq_repr, Int.repr_eq_if]
  split
  · rw [Nat.toList_repr, integer?_toDigits, Int.toNat_of_nonneg ‹_›]
  · have minus : ("-" ++ (-n).toNat.repr).toList = '-' :: Nat.toDigits 10 (-n).toNat := by
      rw [String.toList_append, Nat.toList_repr]
      rfl
    rw [minus, integer?, digits?_toDigits]
    show some (-((-n).toNat : Int)) = some n
    rw [Int.toNat_of_nonneg (by omega), Int.neg_neg]

/-- A numeral for `n`: decimal digits, perhaps behind a plus sign. -/
def IsNumeral (n : Nat) (text : List Char) : Prop :=
  ∃ digits, (text = digits ∨ text = '+' :: digits) ∧ digits ≠ [] ∧
    (∀ c ∈ digits, c.isDigit = true) ∧ Nat.ofDigitChars 10 digits 0 = n

/-- Digits are read as the number that they write. -/
theorem digits?_eq_some_iff {digits : List Char} {n : Nat} : digits? digits = some n ↔
    digits ≠ [] ∧ (∀ c ∈ digits, c.isDigit = true) ∧ Nat.ofDigitChars 10 digits 0 = n := by
  simp [digits?, and_assoc]

theorem natural?_eq_some_iff {text : List Char} {n : Nat} :
    natural? text = some n ↔ IsNumeral n text := by
  unfold natural?
  split
  · rename_i digits
    rw [digits?_eq_some_iff]
    refine ⟨fun h => ⟨digits, .inr rfl, h⟩, ?_⟩
    rintro ⟨_, rfl | same, some, all, value⟩
    · exact absurd (all '+' List.mem_cons_self) (by decide)
    · exact List.tail_eq_of_cons_eq same ▸ ⟨some, all, value⟩
  · rename_i unsigned
    rw [digits?_eq_some_iff]
    refine ⟨fun h => ⟨text, .inl rfl, h⟩, ?_⟩
    rintro ⟨digits, rfl | signed, h⟩
    · exact h
    · exact absurd signed (unsigned digits)

/-- A counter is read from the numerals of its value. -/
theorem counter?_eq_some_iff {text : String} {n : UInt64} :
    counter? text = some n ↔ IsNumeral n.toNat text.toList := by
  rw [← natural?_eq_some_iff, counter?]
  cases natural? text.toList with
  | none => exact ⟨nofun, nofun⟩
  | some m =>
    have bound := n.toNat_lt
    by_cases lt : m < 0x10000000000000000
    · simp only [dif_pos lt, Option.some.injEq, ← UInt64.toNat_inj, UInt64.toNat_ofNatLT]
    · simp only [dif_neg lt, Option.some.injEq, reduceCtorEq, false_iff]
      omega

/-- A numeral for an integer: one for a natural number, or decimal digits behind a minus sign. -/
def IsSignedNumeral (n : Int) (text : List Char) : Prop :=
  (∃ k : Nat, IsNumeral k text ∧ n = k) ∨
    ∃ digits, text = '-' :: digits ∧ digits ≠ [] ∧ (∀ c ∈ digits, c.isDigit = true) ∧
      n = -(Nat.ofDigitChars 10 digits 0 : Int)

theorem integer?_minus_eq_some_iff {digits : List Char} {n : Int} :
    integer? ('-' :: digits) = some n ↔
      ∃ k : Nat, digits? digits = some k ∧ -(k : Int) = n := by
  rw [integer?]
  cases digits? digits <;> simp

/-- An integer is read from its numerals and from nothing else. -/
theorem integer?_eq_some_iff {text : List Char} {n : Int} :
    integer? text = some n ↔ IsSignedNumeral n text := by
  by_cases minus : ∃ digits, text = '-' :: digits
  · obtain ⟨digits, rfl⟩ := minus
    have unsigned (k : Nat) : ¬ IsNumeral k ('-' :: digits) := by
      rintro ⟨_, rfl | signed, -, all, -⟩
      · exact absurd (all '-' List.mem_cons_self) (by decide)
      · exact absurd (List.head_eq_of_cons_eq signed) (by decide)
    simp only [integer?_minus_eq_some_iff, digits?_eq_some_iff]
    constructor
    · rintro ⟨k, ⟨some, all, rfl⟩, rfl⟩
      exact .inr ⟨digits, rfl, some, all, rfl⟩
    · rintro (⟨k, numeral, -⟩ | ⟨_, same, some, all, rfl⟩)
      · exact absurd numeral (unsigned k)
      · obtain rfl := List.tail_eq_of_cons_eq same
        exact ⟨_, ⟨some, all, rfl⟩, rfl⟩
  · have unsigned : ∀ digits, text ≠ '-' :: digits := fun digits signed => minus ⟨digits, signed⟩
    rw [integer?, Option.map_eq_some_iff]
    · simp only [natural?_eq_some_iff]
      constructor
      · rintro ⟨k, numeral, rfl⟩
        exact .inl ⟨k, numeral, rfl⟩
      · rintro (⟨k, numeral, rfl⟩ | ⟨digits, signed, -⟩)
        · exact ⟨k, numeral, rfl⟩
        · exact absurd signed (unsigned digits)
    · exact unsigned

/-- A word is read from the numerals of its value. -/
theorem word?_eq_some_iff {text : String} {w : Word} :
    word? text = some w ↔ IsSignedNumeral w.val text.toList := by
  rw [← integer?_eq_some_iff, word?]
  cases integer? text.toList with
  | none => exact ⟨nofun, nofun⟩
  | some n =>
    rw [Option.bind_some, Bounded.ofInt?_eq_some_iff, Option.some.injEq]
    exact eq_comm

/-- What the numeral of an integer consists of. -/
theorem eq_or_isDigit_of_mem_toString {n : Int} {c : Char} (h : c ∈ (toString n).toList) :
    c = '-' ∨ c.isDigit = true := by
  have digits (n : Nat) (h : c ∈ Nat.toDigits 10 n) : c.isDigit = true :=
    Nat.isDigit_of_mem_toDigits (by decide) (by decide) h
  rw [Int.toString_eq_repr, Int.repr_eq_if] at h
  split at h
  · rw [Nat.toList_repr] at h
    exact .inr (digits _ h)
  · rw [String.toList_append, Nat.toList_repr] at h
    exact (List.mem_append.1 h).imp (fun h => List.mem_singleton.1 h) (digits _)

theorem toString_ne_nil (n : Int) : (toString n).toList ≠ [] := by
  intro empty
  have read := integer?_toString n
  rw [empty] at read
  cases read

theorem isDigit_of_mem_padded {width n : Nat} {c : Char} (h : c ∈ (padded width n).toList) :
    c.isDigit = true := by
  rw [padded, String.toList_ofList, List.mem_append] at h
  rcases h with zero | digit
  · exact List.eq_of_mem_replicate zero ▸ rfl
  · exact Nat.isDigit_of_mem_toDigits (by decide) (by decide) digit

/-- A word is read back from its numeral. -/
theorem word?_toString (w : Word) : word? (toString w) = some w := by
  have text : toString w = toString w.val := rfl
  rw [word?, text, integer?_toString]
  exact Bounded.ofInt?_val w

/-- A counter is read back from its numeral. -/
theorem counter?_toDigits (n : UInt64) :
    counter? (String.ofList (Nat.toDigits 10 n.toNat)) = some n := by
  simp only [counter?, String.toList_ofList, natural?_toDigits]
  rw [dif_pos n.toNat_lt, UInt64.ofNatLT_toNat]

end ChessMachine.Text
