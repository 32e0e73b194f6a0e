import ChessMachine.Arith.Word

/-!
# Decimal numerals

A natural number is read from one or more decimal digits after an optional plus sign, and an
integer may have a minus sign instead. Leading zeros are allowed.

## Main definitions

* `natural?`, `integer?` — the number that a numeral denotes.
* `word?`, `counter?` — the same, if the number fits into a word or a counter of 64 bits.
* `padded` — a number with leading zeros.
-/
namespace ChessMachine.Text

def digits? (digits : List Char) : Option Nat :=
  if !digits.isEmpty && digits.all Char.isDigit then some (Nat.ofDigitChars 10 digits 0) else none

def natural? : List Char → Option Nat
  | '+' :: digits => digits? digits
  | digits => digits? digits

def integer? : List Char → Option Int
  | '-' :: digits => (digits? digits).map fun n => -(n : Int)
  | numeral => (natural? numeral).map Int.ofNat

def word? (numeral : String) : Option Word := (integer? numeral.toList).bind Bounded.ofInt?

def counter? (numeral : String) : Option UInt64 :=
  match natural? numeral.toList with
  | none => none
  | some n => if h : n < 0x10000000000000000 then some (UInt64.ofNatLT n h) else none

/-- Writes `n` with at least `width` digits. -/
def padded (width n : Nat) : String :=
  let digits := Nat.toDigits 10 n
  String.ofList (List.replicate (width - digits.length) '0' ++ digits)

end ChessMachine.Text
