import ChessMachine.Arith.Word
import ChessMachine.Board.Piece

/-!
# Scores

A score counts in hundredths of a pawn and is positive if it favours White.

## Main definitions

* `Score` — an integer of 32 signed bits.
* `Score.inf` — the score of a checkmate by White, and the greatest evaluation.
* `Score.clamped` — an evaluation as a score.
* `Score.isMate` — whether a score says that either side is mated.
-/
namespace ChessMachine

structure Score where
  points : Bounded (-0x80000000) 0x7fffffff
deriving DecidableEq

namespace Score

def val (s : Score) : Int := s.points.val

@[ext] theorem ext_val {s t : Score} (h : s.val = t.val) : s = t := by
  cases s; cases t
  exact congrArg mk (Bounded.ext h)

/-- The greatest absolute value of an evaluation. -/
def bound : Int := 0x7fff

def inf : Score := ⟨bound, by decide, by decide⟩

def draw : Score := ⟨0, by decide, by decide⟩

def negInf : Score := ⟨-bound, by decide, by decide⟩

/-- The score of a position in which `c` is mated. -/
def mated : Color → Score
  | .white => negInf
  | .black => inf

/-- The nearest score from `negInf` to `inf`. -/
def clamped (n : Int) : Score :=
  ⟨max (-bound) (min n bound), by have : bound = 0x7fff := rfl; omega,
    by have : bound = 0x7fff := rfl; omega⟩

theorem val_clamped (n : Int) : (clamped n).val = Max.max (-bound) (Min.min n bound) := rfl

instance : LT Score := ⟨fun s t => s.val < t.val⟩

instance : LE Score := ⟨fun s t => s.val ≤ t.val⟩

instance (s t : Score) : Decidable (s < t) := inferInstanceAs (Decidable (s.val < t.val))

instance (s t : Score) : Decidable (s ≤ t) := inferInstanceAs (Decidable (s.val ≤ t.val))

def max (s t : Score) : Score := if s < t then t else s

def min (s t : Score) : Score := if t < s then t else s

/-! ## Arithmetic -/

def ofInt? (n : Int) : Option Score := (Bounded.ofInt? n).map mk

def add (s t : Score) : Except Overflow Score :=
  Overflow.add.check ((s.points.add? t.points).map mk)

def sub (s t : Score) : Except Overflow Score :=
  Overflow.sub.check ((s.points.sub? t.points).map mk)

def mul (s t : Score) : Except Overflow Score :=
  Overflow.mul.check ((s.points.mul? t.points).map mk)

def neg (s : Score) : Except Overflow Score := Overflow.neg.check (s.points.neg?.map mk)

/-! ## Checkmates -/

/-- Whether a side is mated. The least score of all has no absolute value. -/
def isMate (s : Score) : Except Overflow Bool := do
  let magnitude ← if s.val < 0 then s.neg else pure s
  return inf ≤ magnitude

instance : ToString Score := ⟨fun s => toString s.val⟩

def describe (s : Score) : Except Overflow String := do
  if ← s.isMate then
    let winner := if 0 < s.val then "White" else "Black"
    return s!"{s} (mate for {winner})"
  else return toString s

end Score

end ChessMachine
