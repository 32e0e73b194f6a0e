import ChessMachine.Rules.Legal

/-!
# Counting move sequences

The number of sequences of legal moves of a given length tests the generation of moves.

## Main definitions

* `Position.perft` — the number, with the last ply counted instead of played or played as well.
* `Position.splitPerft` — the numbers by first move, and their sum.
-/
namespace ChessMachine

namespace Position

/-- Adds up `count` over the positions after the given moves. -/
def sumOver (p : Position) (count : Position → Except Failure Nat) : List Move → Except Failure Nat
  | [] => .ok 0
  | m :: rest => do
    let here ← count (← p.play m)
    return here + (← p.sumOver count rest)

/-- The number of sequences of `depth` legal moves. In bulk, the moves of the last ply are counted
without being played. -/
def perft (bulk : Bool) : (depth : Nat) → Position → Except Failure Nat
  | 0, _ => .ok 1
  | depth + 1, p => do
    let moves ← p.legalMoves
    if bulk && depth = 0 then return moves.length
    p.sumOver (perft bulk depth) moves

/-- The count behind each first move that was reached, and the sum or what cut it short. -/
structure Split where
  counts : List (Move × Nat) := []
  total : Except Failure Nat := .ok 0

namespace Split

def line (m : Move) (count : Nat) : String := s!"{m}\t{count}\n"

def printed (s : Split) : String := String.join (s.counts.map fun (m, count) => line m count)

end Split

/-- Counts behind each of the given moves in turn. -/
def splitOver (p : Position) (count : Position → Except Failure Nat) : List Move → Split
  | [] => {}
  | m :: rest =>
    match (do count (← p.play m) : Except Failure Nat) with
    | .error e => { total := .error e }
    | .ok here =>
      let others := p.splitOver count rest
      { counts := (m, here) :: others.counts, total := others.total.map (here + ·) }

def splitPerft (bulk : Bool) : (depth : Nat) → Position → Split
  | 0, _ => { total := .ok 1 }
  | depth + 1, p =>
    match p.legalMoves with
    | .error e => { total := .error e }
    | .ok moves => p.splitOver (perft bulk depth) moves

end Position

end ChessMachine
