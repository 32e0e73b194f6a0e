import ChessMachine.Board.Square

/-!
# Moves

A move names two squares and perhaps a promotion. Whether it captures, castles or takes in
passing is a matter of the position in which it is played.

## Main definitions

* `Move` — source, destination and promotion.
* `Move.text`, `Move.ofText` — coordinate notation, such as `e2e4` and `e7e8q`.
-/
namespace ChessMachine

structure Move where
  src : Square
  dst : Square
  promotion : Option PieceKind := none
deriving DecidableEq

namespace Move

def chars (m : Move) : List Char :=
  m.src.chars ++ m.dst.chars ++ (m.promotion.map PieceKind.letter).toList

def text (m : Move) : String := String.ofList m.chars

instance : ToString Move := ⟨text⟩

/-- Reads the letter of a promotion; `whole` is the text it ends. -/
def promotionOf (whole : String) (c : Char) : Except NotationError PieceKind := do
  let kind ← PieceKind.ofLetter c
  if kind ∈ PieceKind.promotions then return kind else throw (.promotionKind kind.name whole)

def ofText (text : String) : Except NotationError Move :=
  if text.toList.all (·.toNat < 128) then
    match text.toList with
    | [a, b, c, d] => do return ⟨← Square.ofChars a b, ← Square.ofChars c d, none⟩
    | [a, b, c, d, e] => do
      return ⟨← Square.ofChars a b, ← Square.ofChars c d, some (← promotionOf text e)⟩
    | _ => .error (.moveLength text)
  else .error (.moveLength text)

def fileDistance (m : Move) : Nat := (m.src.file.index.val - m.dst.file.index.val : Int).natAbs

def rankDistance (m : Move) : Nat := (m.src.rank.index.val - m.dst.rank.index.val : Int).natAbs

end Move

end ChessMachine
