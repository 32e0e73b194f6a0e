/-!
# Integers within bounds

`Bounded lo hi` holds the integers from `lo` to `hi`. Arithmetic on it fails when the exact
result leaves the bounds, so that no operation wraps around unnoticed.

## Main definitions

* `Bounded lo hi` — an integer together with its bounds.
* `Bounded.ofInt?` — the integer itself, if it lies within the bounds.
* `Bounded.add?`, `Bounded.sub?`, `Bounded.mul?`, `Bounded.neg?` — exact arithmetic or nothing.
* `Bounded.saturate` — the nearest integer within the bounds.
* `Overflow` — which operation left the bounds.
-/
namespace ChessMachine

/-- The integers from `lo` to `hi`. -/
structure Bounded (lo hi : Int) where
  val : Int
  lo_le : lo ≤ val
  le_hi : val ≤ hi
deriving DecidableEq

namespace Bounded

variable {lo hi : Int}

@[ext]
theorem ext {a b : Bounded lo hi} (h : a.val = b.val) : a = b := by
  cases a; cases b; simp_all

@[inline] def ofInt? (n : Int) : Option (Bounded lo hi) :=
  if h : lo ≤ n ∧ n ≤ hi then some ⟨n, h.1, h.2⟩ else none

theorem ofInt?_eq_some_iff {n : Int} {a : Bounded lo hi} : ofInt? n = some a ↔ a.val = n := by
  unfold ofInt?
  split
  · rw [Option.some.injEq]
    exact ⟨fun h => h ▸ rfl, fun h => ext h.symm⟩
  · have := a.lo_le
    have := a.le_hi
    simp only [reduceCtorEq, false_iff]
    omega

theorem ofInt?_eq_none_iff {n : Int} :
    (ofInt? n : Option (Bounded lo hi)) = none ↔ n < lo ∨ hi < n := by
  unfold ofInt?
  split <;> simp <;> omega

@[simp] theorem ofInt?_val (a : Bounded lo hi) : ofInt? a.val = some a :=
  ofInt?_eq_some_iff.2 rfl

@[inline] def add? (a b : Bounded lo hi) : Option (Bounded lo hi) := ofInt? (a.val + b.val)

@[inline] def sub? (a b : Bounded lo hi) : Option (Bounded lo hi) := ofInt? (a.val - b.val)

@[inline] def mul? (a b : Bounded lo hi) : Option (Bounded lo hi) := ofInt? (a.val * b.val)

@[inline] def neg? (a : Bounded lo hi) : Option (Bounded lo hi) := ofInt? (-a.val)

def saturate (lo_le_hi : lo ≤ hi) (n : Int) : Bounded lo hi :=
  ⟨max lo (min n hi), by omega, by omega⟩

@[simp] theorem val_saturate (h : lo ≤ hi) (n : Int) : (saturate h n).val = max lo (min n hi) := rfl

end Bounded

/-- The operation whose exact result left the bounds. -/
inductive Overflow where
  | add
  | sub
  | mul
  | neg
deriving DecidableEq, Repr

namespace Overflow

def message : Overflow → String
  | add => "attempt to add with overflow"
  | sub => "attempt to subtract with overflow"
  | mul => "attempt to multiply with overflow"
  | neg => "attempt to negate with overflow"

/-- Names the operation that gave no result. -/
def check {α : Type} (o : Overflow) : Option α → Except Overflow α
  | some a => .ok a
  | none => .error o

end Overflow

end ChessMachine
