/-!
# Lines

A line ends at a line feed, which a carriage return may precede. The definitions work over any
alphabet, since a file is cut into lines before its bytes are read as characters.

## Main definitions

* `lines` — the lines of a text, without their ends.
-/
namespace ChessMachine.Text

variable {α : Type} [DecidableEq α]

/-- Drops a last symbol `cr`. -/
def dropReturn (cr : α) (line : List α) : List α :=
  if line.getLast? = some cr then line.dropLast else line

/-- Every piece but the last was ended by a line feed; an empty last piece is no line. -/
def closeLines (cr : α) : List (List α) → List (List α)
  | [] => []
  | [last] => if last.isEmpty then [] else [last]
  | line :: rest => dropReturn cr line :: closeLines cr rest

/-- The lines of `text`, where `lf` ends a line and `cr` before it belongs to the end. -/
def lines (lf cr : α) (text : List α) : List (List α) := closeLines cr (text.splitOn lf)

end ChessMachine.Text
