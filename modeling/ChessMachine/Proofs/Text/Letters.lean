/-!
# Letters and digits

A letter comes in two cases, and the classes of characters are ranges of their numbers.

## Main results

* `Text.eq_toLower_or_eq_toUpper`, `Text.toLower_eq_toLower_iff` — a letter is one of two.
* `Text.isDigit_iff`, `Text.isLower_iff`, `Text.isUpper_iff` — classes of characters.
-/
namespace ChessMachine.Text

/-- A letter in lower case stands for itself and for its upper case. -/
theorem eq_toLower_or_eq_toUpper (c : Char) : c = c.toLower ∨ c = c.toLower.toUpper := by
  unfold Char.toLower
  split
  · rename_i upper
    have lower : 'a'.val ≤ c.val + ('a'.val - 'A'.val) ∧ c.val + ('a'.val - 'A'.val) ≤ 'z'.val := by
      simp [UInt32.le_iff_toNat_le, UInt32.toNat_add] at *
      omega
    have back : c.val + ('a'.val - 'A'.val) + ('A'.val - 'a'.val) = c.val := by
      rw [UInt32.add_assoc]
      exact UInt32.add_zero c.val
    refine .inr (Char.ext ?_)
    unfold Char.toUpper
    rw [dif_pos lower]
    exact back.symm
  · exact .inl rfl

/-- A capital has the lower case of itself and of its small letter only. -/
theorem toLower_eq_toLower_iff {c letter : Char} (upper : letter.toLower.toUpper = letter)
    (lower : letter.toLower.toLower = letter.toLower) :
    c.toLower = letter.toLower ↔ c = letter ∨ c = letter.toLower := by
  constructor
  · intro same
    rcases eq_toLower_or_eq_toUpper c with h | h
    · exact .inr (h.trans same)
    · rw [same, upper] at h
      exact .inl h
  · rintro (rfl | rfl)
    · rfl
    · exact lower

theorem isDigit_iff {c : Char} : c.isDigit = true ↔ 48 ≤ c.toNat ∧ c.toNat ≤ 57 :=
  Char.isDigit_iff_toNat

theorem isLower_iff {c : Char} : c.isLower = true ↔ 97 ≤ c.toNat ∧ c.toNat ≤ 122 := by
  unfold Char.isLower
  simp [UInt32.le_iff_toNat_le]

theorem isUpper_iff {c : Char} : c.isUpper = true ↔ 65 ≤ c.toNat ∧ c.toNat ≤ 90 := by
  unfold Char.isUpper
  simp [UInt32.le_iff_toNat_le]

end ChessMachine.Text
