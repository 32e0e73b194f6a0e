/-!
# Blank characters

Two classes of blanks are in use: the five of ASCII, which part the fields of a line, and the
Unicode property `White_Space`, which is trimmed from the ends of a text.

## Main definitions

* `isAsciiBlank` — space, tab, line feed, form feed, carriage return.
* `isBlank` — the Unicode property `White_Space`.
* `asciiWords`, `blankWords` — the maximal runs without a blank.
* `trim` — a text without the blanks at its ends.
-/
namespace ChessMachine.Text

def isAsciiBlank (c : Char) : Bool :=
  c = ' ' || c = '\t' || c = '\n' || c = '\x0c' || c = '\r'

/-- The first and last code points of each run of `White_Space`. -/
def blankRanges : List (Nat × Nat) :=
  [(0x09, 0x0d), (0x20, 0x20), (0x85, 0x85), (0xa0, 0xa0), (0x1680, 0x1680), (0x2000, 0x200a),
   (0x2028, 0x2029), (0x202f, 0x202f), (0x205f, 0x205f), (0x3000, 0x3000)]

def isBlank (c : Char) : Bool :=
  blankRanges.any fun (first, last) => first ≤ c.toNat && c.toNat ≤ last

/-- The maximal runs of characters that are not blank. -/
def words (blank : Char → Bool) (text : List Char) : List (List Char) :=
  (text.splitOnP blank).filter (!·.isEmpty)

def asciiWords (text : String) : List String := (words isAsciiBlank text.toList).map String.ofList

def blankWords (text : String) : List String := (words isBlank text.toList).map String.ofList

/-- Drops from both ends the characters that satisfy `p`. -/
def strip (p : Char → Bool) (text : List Char) : List Char :=
  ((text.dropWhile p).reverse.dropWhile p).reverse

def trim (text : String) : String := String.ofList (strip isBlank text.toList)

end ChessMachine.Text
