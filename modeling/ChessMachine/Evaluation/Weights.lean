import ChessMachine.Arith.Binary64
import ChessMachine.Board.Square

/-!
# Weights

The value of a piece is a value for its kind and a value for its square. Both are numbers in
floating point that training adjusts.

## Main definitions

* `SquareTable` — a value for each square, as White sees the board.
* `Weights` — a value and a table for each kind.
* `Weights.valueOf` — the value of a piece on a square.
* `Weights.initial` — the values before any training.
-/
namespace ChessMachine

structure SquareTable where
  values : Vector Float 64

namespace SquareTable

def get (t : SquareTable) (s : Square) : Float := getElem t.values s.index s.index_lt

def set (t : SquareTable) (s : Square) (x : Float) : SquareTable :=
  ⟨t.values.set s.index x s.index_lt⟩

theorem get_set (t : SquareTable) (s u : Square) (x : Float) :
    (t.set s x).get u = if u = s then x else t.get u := by
  simp only [get, set, Vector.getElem_set, Square.index_inj, eq_comm]

/-- The table that is written as the board is seen, the eighth rank first. -/
def ofRows (rows : List (List Int)) : SquareTable :=
  let values := rows.reverse.flatten.toArray
  ⟨Vector.ofFn fun i => Float.ofInt (values[i.val]?.getD 0)⟩

/-! ## Printing -/

/-- A value in at least six places. -/
def cell (x : Float) : String :=
  let text := (Binary64.ofFloat x).twoPlaces
  String.ofList (List.replicate (6 - text.length) ' ') ++ text ++ " "

def rankLine (t : SquareTable) (rank : Rank) : String :=
  let cells := String.join (File.all.map fun file => cell (t.get ⟨file, rank⟩))
  s!"{rank.digit}| {cells}\n"

/-- The table as the board is seen, with the letters of the files below. -/
def text (t : SquareTable) : String :=
  String.join (Rank.all.reverse.map t.rankLine)
    ++ " +" ++ String.join (File.all.map fun _ => "-------")
    ++ "\n   " ++ String.join (File.all.map fun file => s!"{file.letter} ")

end SquareTable

namespace PieceKind

/-- The value of a kind before any training. A king has none, since it is never lost. -/
def initialValue : PieceKind → Int
  | pawn => 100
  | knight => 320
  | bishop => 330
  | rook => 500
  | queen => 900
  | king => 0

/-- The values of the squares before any training. -/
def initialRows : PieceKind → List (List Int)
  | pawn => [
    [0, 0, 0, 0, 0, 0, 0, 0],
    [50, 50, 50, 50, 50, 50, 50, 50],
    [10, 10, 20, 30, 30, 20, 10, 10],
    [5, 5, 10, 25, 25, 10, 5, 5],
    [0, 0, 0, 20, 20, 0, 0, 0],
    [5, -5, -10, 0, 0, -10, -5, 5],
    [5, 10, 10, -20, -20, 10, 10, 5],
    [0, 0, 0, 0, 0, 0, 0, 0]]
  | knight => [
    [-50, -40, -30, -30, -30, -30, -40, -50],
    [-40, -20, 0, 0, 0, 0, -20, -40],
    [-30, 0, 10, 15, 15, 10, 0, -30],
    [-30, 5, 15, 20, 20, 15, 5, -30],
    [-30, 0, 15, 20, 20, 15, 0, -30],
    [-30, 5, 10, 15, 15, 10, 5, -30],
    [-40, -20, 0, 5, 5, 0, -20, -40],
    [-50, -40, -30, -30, -30, -30, -40, -50]]
  | bishop => [
    [-20, -10, -10, -10, -10, -10, -10, -20],
    [-10, 0, 0, 0, 0, 0, 0, -10],
    [-10, 0, 5, 10, 10, 5, 0, -10],
    [-10, 5, 5, 10, 10, 5, 5, -10],
    [-10, 0, 10, 10, 10, 10, 0, -10],
    [-10, 10, 10, 10, 10, 10, 10, -10],
    [-10, 5, 0, 0, 0, 0, 5, -10],
    [-20, -10, -10, -10, -10, -10, -10, -20]]
  | rook => [
    [0, 0, 0, 0, 0, 0, 0, 0],
    [5, 10, 10, 10, 10, 10, 10, 5],
    [-5, 0, 0, 0, 0, 0, 0, -5],
    [-5, 0, 0, 0, 0, 0, 0, -5],
    [-5, 0, 0, 0, 0, 0, 0, -5],
    [-5, 0, 0, 0, 0, 0, 0, -5],
    [-5, 0, 0, 0, 0, 0, 0, -5],
    [0, 0, 0, 5, 5, 0, 0, 0]]
  | queen => [
    [-20, -10, -10, -5, -5, -10, -10, -20],
    [-10, 0, 0, 0, 0, 0, 0, -10],
    [-10, 0, 5, 5, 5, 5, 0, -10],
    [-5, 0, 5, 5, 5, 5, 0, -5],
    [0, 0, 5, 5, 5, 5, 0, -5],
    [-10, 5, 5, 5, 5, 5, 0, -10],
    [-10, 0, 5, 0, 0, 0, 0, -10],
    [-20, -10, -10, -5, -5, -10, -10, -20]]
  | king => [
    [-30, -40, -40, -50, -50, -40, -40, -30],
    [-30, -40, -40, -50, -50, -40, -40, -30],
    [-30, -40, -40, -50, -50, -40, -40, -30],
    [-30, -40, -40, -50, -50, -40, -40, -30],
    [-20, -30, -30, -40, -40, -30, -30, -20],
    [-10, -20, -20, -20, -20, -20, -20, -10],
    [20, 20, 0, 0, 0, 0, 20, 20],
    [20, 30, 10, 0, 0, 10, 30, 20]]

end PieceKind

structure Weights where
  material : Vector Float 6
  tables : Vector SquareTable 6

namespace Weights

def materialOf (w : Weights) (k : PieceKind) : Float := w.material.get k.index

def tableOf (w : Weights) (k : PieceKind) : SquareTable := w.tables.get k.index

def setMaterial (w : Weights) (k : PieceKind) (x : Float) : Weights :=
  { w with material := w.material.set k.index x }

/-- Sets the value of a kind on a square, as White sees the board. -/
def setSquare (w : Weights) (k : PieceKind) (s : Square) (x : Float) : Weights :=
  { w with tables := w.tables.set k.index ((w.tableOf k).set s x) }

/-- The value of a piece on a square. Black's squares are looked up from Black's side. -/
def valueOf (w : Weights) (p : Piece) (s : Square) : Float :=
  w.materialOf p.kind + (w.tableOf p.kind).get (s.orientedFor p.color)

def wordOf (w : Weights) (p : Piece) (s : Square) : Word :=
  (Binary64.ofFloat (w.valueOf p s)).toWord

/-- The kinds in the order of their values. -/
def kinds : Vector PieceKind 6 := #v[.pawn, .knight, .bishop, .rook, .queen, .king]

def initial : Weights where
  material := kinds.map fun k => Float.ofInt k.initialValue
  tables := kinds.map fun k => SquareTable.ofRows k.initialRows

end Weights

end ChessMachine
