import ChessMachine.Evaluation.Evaluate
import ChessMachine.Rules.Legal

/-!
# Search

White looks for the greatest score and Black for the smallest, to a fixed depth. Moves are tried
in the order in which they are generated, and a later one is preferred only if it is better.
Moves that cannot change the outcome within the window from `alpha` to `beta` are left out.

## Main definitions

* `Position.alphaBeta` — the score of a position within a window.
* `Position.search` — the score, the best move and the number of positions looked at.
* `Position.bestMove` — the best move by evaluation one ply ahead.
-/
namespace ChessMachine

structure SearchResult where
  score : Score
  best : Option Move
  nodes : Nat
deriving DecidableEq

namespace Color

/-- Whether `s` is better for the side to move than `t`. -/
def prefers (c : Color) (s t : Score) : Bool :=
  match c with
  | .white => t < s
  | .black => s < t

end Color

namespace Position

/-- The score of a position without legal moves. -/
def terminalScore (p : Position) : Except Fault Score := do
  if ← p.inCheck p.toMove then return Score.mated p.toMove else return Score.draw

/-- The scores of the moves tried so far: the best one, its move, and the window that is left. -/
structure Progress where
  result : SearchResult
  alpha : Score
  beta : Score

namespace Progress

/-- Takes notice of the score of one more move of `c`. -/
def note (r : Progress) (c : Color) (m : Move) (child : SearchResult) : Progress :=
  let nodes := r.result.nodes + child.nodes
  let result : SearchResult :=
    if c.prefers child.score r.result.score then { score := child.score, best := some m, nodes }
    else { r.result with nodes }
  match c with
  | .white => { r with result, alpha := r.alpha.max result.score }
  | .black => { r with result, beta := r.beta.min result.score }

end Progress

/-- Tries moves in turn until the window closes. -/
def tryMoves (p : Position) (child : Position → Score → Score → Except Failure SearchResult)
    (r : Progress) : List Move → Except Failure SearchResult
  | [] => .ok r.result
  | m :: rest => do
    let next := r.note p.toMove m (← child (← p.play m) r.alpha r.beta)
    if next.beta ≤ next.alpha then return next.result else p.tryMoves child next rest

def leaf (score : Score) : SearchResult := { score, best := none, nodes := 1 }

/-- Looks at a position: its score if it has no king or no moves, else `goOn` with its moves. -/
def examine (w : Weights) (p : Position) (goOn : List Move → Except Failure SearchResult) :
    Except Failure SearchResult := do
  if (p.king? p.toMove).isNone then return leaf (← p.evaluate w)
  match ← p.legalMoves with
  | [] => return leaf (← p.terminalScore)
  | moves => goOn moves

/-- The score of a position to a depth, where only scores between `alpha` and `beta` matter. -/
def alphaBeta (w : Weights) : (depth : Nat) → Position → (alpha beta : Score) →
    Except Failure SearchResult
  | 0, p, _, _ => p.examine w fun _ => do return leaf (← p.evaluate w)
  | depth + 1, p, alpha, beta => p.examine w fun moves =>
    p.tryMoves (alphaBeta w depth) { result := leaf (Score.mated p.toMove), alpha, beta } moves

/-- Searches to a depth of at least one. A side that is lost whatever it does plays its first
move. -/
def search (w : Weights) (depth : Nat) (p : Position) : Except Failure SearchResult := do
  if (p.king? p.toMove).isNone then
    return { score := ← p.evaluate w, best := none, nodes := 0 }
  let moves ← p.legalMoves
  let result ← p.alphaBeta w (max depth 1) Score.negInf Score.inf
  return { result with best := result.best <|> moves.head? }

/-! ## One ply ahead -/

/-- The better of the best move so far and the best of further moves. -/
def bestOf (w : Weights) (p : Position) (best : Option (Move × Score)) :
    List Move → Except Failure (Option (Move × Score))
  | [] => .ok best
  | m :: rest => do
    let score ← (← p.play m).evaluate w
    if best.all fun (_, s) => p.toMove.prefers score s then p.bestOf w (some (m, score)) rest
    else p.bestOf w best rest

/-- The move after which the position evaluates best, the first one of equals. -/
def bestMove (w : Weights) (p : Position) : Except Failure (Option Move) := do
  return (← p.bestOf w none (← p.legalMoves)).map Prod.fst

end Position

end ChessMachine
