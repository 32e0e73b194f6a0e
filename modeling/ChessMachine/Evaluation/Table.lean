import ChessMachine.Board.Position
import ChessMachine.Evaluation.Weights

/-!
# Tables of contributions

The board with what each piece adds to the evaluation, seen from White's side.

## Main definitions

* `Position.contribution?` — what the piece on a square adds for White.
* `Position.evalTable` — the drawing, unless a contribution overflows.
-/
namespace ChessMachine

namespace Position

/-- What the piece on a square adds for White. -/
def contribution? (w : Weights) (p : Position) (s : Square) : Except Overflow (Option Word) :=
  match p.piece? s with
  | none => .ok none
  | some piece =>
    (Overflow.mul.check ((w.wordOf piece s).mul? (Word.wrap piece.color.sign))).map some

/-- A text in the middle of at least five places, one place further left if it cannot be. -/
def centred (text : String) : String :=
  let room := 5 - text.length
  String.ofList (List.replicate (room / 2) ' ') ++ text
    ++ String.ofList (List.replicate (room - room / 2) ' ')

def contributionText : Option Word → String
  | none => "     "
  | some n => centred (if 0 < n.val then s!"+{n}" else toString n)

def tableBorder : String := "  +" ++ String.join (File.all.map fun _ => "-----+") ++ "\n"

/-- What is drawn for the piece on a square. -/
def tableLetter (content : Option Piece) : String :=
  String.ofList [' ', ' ', (content.map Piece.letter).getD ' ', ' ', ' ', '|']

/-- The two lines of a rank and the border below. -/
def tableRank (w : Weights) (p : Position) (rank : Rank) : Except Overflow String := do
  let letters := File.all.map fun file => tableLetter (p.piece? ⟨file, rank⟩)
  let values ← File.all.mapM fun file => p.contribution? w ⟨file, rank⟩
  let numbers := values.map fun n => contributionText n ++ "|"
  return s!"{rank.digit} |{String.join letters}\n  |{String.join numbers}\n{tableBorder}"

def evalTable (w : Weights) (p : Position) : Except Overflow String := do
  let ranks ← Rank.all.reverse.mapM (p.tableRank w)
  let letters := File.all.map fun file => s!"     {file.letter}"
  return tableBorder ++ String.join ranks ++ String.join letters

end Position

end ChessMachine
