import ChessMachine.Board.Fen

/-!
# Finished games

A game to learn from is written on one line: the position it started from, the moves that were
played, and who won, parted by semicolons.

## Main definitions

* `GameResult`, `GameResult.ofText` — the outcome of a game.
* `Game`, `Game.ofText` — a game and its line.
-/
namespace ChessMachine

inductive GameResult where
  | blackWin
  | draw
  | whiteWin
deriving DecidableEq

inductive GameError where
  | fieldCount (text : String)
  | fen (cause : NotationError)
  | moveList (cause : NotationError)
  | result (text : String)
deriving DecidableEq

namespace GameError

def message : GameError → String
  | fieldCount text => s!"Expected 3 fields separated by ';'. Got {Text.quoted text}"
  | fen cause => s!"Invalid FEN: {cause.message}"
  | moveList cause => s!"Invalid move list: {cause.message}"
  | result text => s!"Could not parse {Text.quoted text} into GameResult"

end GameError

namespace GameResult

/-- Positive if White won, negative if Black won. -/
def sign : GameResult → Option Float
  | blackWin => some (-1.0)
  | draw => none
  | whiteWin => some 1.0

/-- The text of a result without blanks and brackets around it. -/
def bare (text : String) : String :=
  let chars := (Text.trim text).toList.dropWhile (· = '[')
  String.ofList (chars.reverse.dropWhile (· = ']')).reverse

def ofText (text : String) : Except GameError GameResult :=
  match bare text with
  | "0.0" | "0-1" => .ok blackWin
  | "0.5" | "1/2-1/2" => .ok draw
  | "1.0" | "1-0" => .ok whiteWin
  | other => .error (.result other)

end GameResult

structure Game where
  start : Position
  moves : List Move
  result : GameResult
deriving DecidableEq

namespace Game

def ofText (text : String) : Except GameError Game :=
  match text.toList.splitOn ';' with
  | [fen, moves, result] => do
    let start ← (Position.ofFen (Text.trim (String.ofList fen))).mapError .fen
    let moves ← ((Text.asciiWords (String.ofList moves)).mapM Move.ofText).mapError .moveList
    return { start, moves, result := ← GameResult.ofText (String.ofList result) }
  | _ => .error (.fieldCount text)

end Game

end ChessMachine
