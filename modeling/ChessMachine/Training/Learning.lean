import ChessMachine.Evaluation.Weights
import ChessMachine.Training.Game

/-!
# Learning

The weights are moved towards the moves of the winners and away from those of the losers. Each
move of a decided game changes the value of the kind that moved and the values of the two squares
by a small amount.

## Main definitions

* `Lesson` — what was learnt, also if an overflow cut the learning short.
* `Weights.learnMove` — what one move changes.
* `Weights.learnMoves` — replays moves and learns each of them.
* `Weights.train` — learns from decided games.
-/
namespace ChessMachine

def learningRate : Float := 0.01

/-- The weights after learning, and how it ended. -/
structure Lesson (α : Type) where
  weights : Weights
  outcome : Except Overflow α

namespace Weights

/-- Learns that `piece` made a move in a game whose result has the given sign. -/
def learnMove (w : Weights) (sign : Float) (piece : Piece) (m : Move) : Weights :=
  let change := learningRate * sign * Float.ofInt piece.color.sign
  let kind := piece.kind
  let src := m.src.orientedFor piece.color
  let dst := m.dst.orientedFor piece.color
  let w := w.setMaterial kind (w.materialOf kind + change)
  let w := w.setSquare kind src ((w.tableOf kind).get src - change)
  w.setSquare kind dst ((w.tableOf kind).get dst + change)

/-- Learns a move that is made in a position. A move from an empty square teaches nothing. -/
def learnIn (w : Weights) (sign : Float) (p : Position) (m : Move) : Weights :=
  match p.piece? m.src with
  | some piece => w.learnMove sign piece m
  | none => w

/-- Learns the moves of a game that goes on from a position, each before it is played. -/
def learnMoves (w : Weights) (sign : Float) (p : Position) : List Move → Lesson Unit
  | [] => ⟨w, .ok ()⟩
  | m :: rest =>
    match p.play m with
    | .ok next => (w.learnIn sign p m).learnMoves sign next rest
    | .error o => ⟨w.learnIn sign p m, .error o⟩

/-- Learns the games that were not drawn, and counts them. -/
def train (w : Weights) : List Game → Lesson Nat
  | [] => ⟨w, .ok 0⟩
  | g :: rest =>
    match g.result.sign with
    | none => w.train rest
    | some sign =>
      match w.learnMoves sign g.start g.moves with
      | ⟨w, .ok ()⟩ =>
        let later := w.train rest
        { later with outcome := later.outcome.map (· + 1) }
      | ⟨w, .error o⟩ => ⟨w, .error o⟩

end Weights

end ChessMachine
