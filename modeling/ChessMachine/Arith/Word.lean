import ChessMachine.Arith.Bounded

/-!
# Machine words

The values on the stack and in the memory of the machine: integers of 64 signed bits.

## Main definitions

* `Word` — an integer of 64 signed bits.
* `Word.wrap` — the word that agrees with an integer modulo `2 ^ 64`.
* `Word.ofBool` — `1` for true, `0` for false.
* `Word.saturate` — the nearest word.
-/
namespace ChessMachine

/-- The integers from `-2 ^ 63` to `2 ^ 63 - 1`. -/
abbrev Word := Bounded (-0x8000000000000000) 0x7fffffffffffffff

namespace Word

/-- The word that agrees with `n` modulo `2 ^ 64`. -/
def wrap (n : Int) : Word := ⟨n.bmod 0x10000000000000000, by
  have := @Int.le_bmod n 0x10000000000000000 (by decide)
  omega, by
  have := @Int.bmod_lt n 0x10000000000000000 (by decide)
  omega⟩

theorem val_wrap {n : Int} (lo_le : -0x8000000000000000 ≤ n) (le_hi : n ≤ 0x7fffffffffffffff) :
    (wrap n).val = n :=
  Int.bmod_eq_of_le (by omega) (by omega)

/-- Addresses from `2 ^ 63` on wrap to negative words, which no memory answers to. -/
def ofNat (n : Nat) : Word :=
  if h : n < 0x8000000000000000 then ⟨n, by omega, by omega⟩ else wrap n

theorem val_ofNat {n : Nat} (h : n < 0x8000000000000000) : (ofNat n).val = n := by
  rw [ofNat, dif_pos h]

instance (n : Nat) : OfNat Word n := ⟨ofNat n⟩

instance : Inhabited Word := ⟨0⟩

instance : ToString Word := ⟨fun w => toString w.val⟩

def ofBool (b : Bool) : Word := if b then 1 else 0

def saturate (n : Int) : Word := Bounded.saturate (by omega) n

/-- The word as a number of cells or instructions, unless it is negative. -/
@[inline] def toNat? (w : Word) : Option Nat := if 0 ≤ w.val then some w.val.toNat else none

theorem toNat?_eq_some_iff {w : Word} {n : Nat} : w.toNat? = some n ↔ w.val = n := by
  unfold toNat?
  split <;> simp <;> omega

end Word

end ChessMachine
