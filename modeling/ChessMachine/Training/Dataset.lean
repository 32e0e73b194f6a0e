import ChessMachine.Text.Lines
import ChessMachine.Training.Game

/-!
# Datasets

A dataset holds one game on each line. Blank lines, comments and lines that are no game are
passed over, but every line has to be text.

## Main definitions

* `Dataset.ofBytes` — the games of a file.
-/
namespace ChessMachine

namespace Dataset

/-- Line `line` is not UTF-8. -/
structure EncodingError where
  line : Nat
deriving DecidableEq

def EncodingError.message (e : EncodingError) : String :=
  s!"Failed to read line {e.line}: stream did not contain valid UTF-8"

/-- The game on a line, if there is one. -/
def gameOf (line : String) : Option Game :=
  let text := Text.trim line
  if text.isEmpty || text.startsWith "#" then none else (Game.ofText text).toOption

/-- The games on consecutive lines, the first of which has the given number. -/
def ofLines (number : Nat) : List (List UInt8) → Except EncodingError (List Game)
  | [] => .ok []
  | line :: rest =>
    match String.fromUTF8? ⟨line.toArray⟩ with
    | none => .error ⟨number⟩
    | some text => do return (gameOf text).toList ++ (← ofLines (number + 1) rest)

def ofBytes (bytes : ByteArray) : Except EncodingError (List Game) :=
  ofLines 1 (Text.lines '\n'.toUInt8 '\r'.toUInt8 bytes.toList)

end Dataset

end ChessMachine
