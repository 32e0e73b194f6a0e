import ChessMachine.Arith.Word

/-!
# Numbers in binary floating point

A number in double precision is read off its 64 bits, so that rounding and printing are exact
computations on integers.

## Main definitions

* `Binary64` — a sign, a significand and an exponent of two, or no finite number.
* `Binary64.ofFloat` — reads the bits.
* `Binary64.toWord` — the nearest word, halves away from zero.
* `Binary64.twoPlaces` — the decimal text with two places, halves to even.
-/
namespace ChessMachine

inductive Binary64 where
  | nan
  | infinite (negative : Bool)
  /-- The number `significand * 2 ^ exponent`, negated if `negative`. -/
  | finite (negative : Bool) (significand : Nat) (exponent : Int)
deriving DecidableEq

/-- A quotient rounded to the nearest integer, where `half` decides on exact halves by the smaller
neighbour. -/
def roundQuotient (half : Nat → Bool) (num den : Nat) : Nat :=
  let q := num / den
  let r := num % den
  if 2 * r < den then q else if den < 2 * r then q + 1 else if half q then q + 1 else q

namespace Binary64

/-- One bit of sign, eleven of exponent, fifty-two of fraction. -/
def ofBits (bits : UInt64) : Binary64 :=
  let negative := bits >>> 63 != 0
  let exponent := ((bits >>> 52) &&& 0x7ff).toNat
  let fraction := (bits &&& 0xfffffffffffff).toNat
  if exponent = 0x7ff then (if fraction = 0 then infinite negative else nan)
  else if exponent = 0 then finite negative fraction (-1074)
  else finite negative (0x10000000000000 + fraction) (exponent - 1075)

def ofFloat (x : Float) : Binary64 := ofBits x.toBits

/-- The multiple `scale * significand * 2 ^ exponent`, rounded. -/
def roundScaled (half : Nat → Bool) (scale significand : Nat) (exponent : Int) : Nat :=
  if 0 ≤ exponent then (scale * significand) <<< exponent.toNat
  else roundQuotient half (scale * significand) (1 <<< (-exponent).toNat)

/-- The word nearest to the number, halves away from zero; `0` if it is no number. -/
def toWord : Binary64 → Word
  | nan => 0
  | infinite negative =>
    Word.saturate (if negative then -0x8000000000000000 else 0x8000000000000000)
  | finite negative significand exponent =>
    let n : Int := roundScaled (fun _ => true) 1 significand exponent
    Word.saturate (if negative then -n else n)

/-- The number with two decimal places, halves to the even neighbour. -/
def twoPlaces : Binary64 → String
  | nan => "NaN"
  | infinite negative => if negative then "-inf" else "inf"
  | finite negative significand exponent =>
    let n := roundScaled (fun q => q % 2 = 1) 100 significand exponent
    let cents := n % 100
    let sign := if negative then "-" else ""
    s!"{sign}{n / 100}.{cents / 10}{cents % 10}"

end Binary64

end ChessMachine
