import ChessMachine.Board.Fen

/-!
# Diagrams

A position drawn as a board, seen from White's side, with the other fields written beside the
ranks.

## Main definitions

* `Position.diagram` — the drawing.
-/
namespace ChessMachine

namespace Position

def margin (p : Position) (rank : Rank) : String :=
  match rank.index with
  | 6 => s!"           FEN: {p.fen}"
  | 5 => s!"          Side: {p.toMove.letter}"
  | 4 => s!"      Castling: {p.rights}"
  | 3 => "            EP: " ++ (p.enPassant.map Square.text).getD "-"
  | 2 => s!"     Half-move: {p.halfmove.toNat}"
  | 1 => s!"     Full-move: {p.fullmove.toNat}"
  | _ => ""

/-- What is drawn for a square. -/
def diagramCell (content : Option Piece) : String :=
  String.ofList [' ', (content.map Piece.letter).getD '.']

def diagramRank (p : Position) (rank : Rank) : String :=
  let cells := String.join ((p.board.row rank).map diagramCell)
  s!"{rank.digit}|{cells}{p.margin rank}\n"

def diagram (p : Position) : String :=
  String.join (Rank.all.reverse.map p.diagramRank)
    ++ " +" ++ String.join (File.all.map fun _ => "--")
    ++ "\n   " ++ String.join (File.all.map fun file => s!"{file.letter} ")

end Position

end ChessMachine
