import ChessMachine.Board.Diagram
import ChessMachine.Engine.Command
import ChessMachine.Engine.Folder
import ChessMachine.Evaluation.Table
import ChessMachine.Machine.Assembly
import ChessMachine.Rules.MoveList
import ChessMachine.Rules.Perft
import ChessMachine.Search.AlphaBeta
import ChessMachine.Training.Dataset
import ChessMachine.Training.Learning

/-!
# The engine

The engine holds a position and weights, and executes commands on them. A command that fails
leaves both as they were, but training that an overflow cuts short keeps what was learnt.

## Main definitions

* `Engine` — the state.
* `EngineError` — why a command failed.
* `Reply` — what a command prints, the state after it and whether to go on.
* `Engine.execute` — the reply to a command.
-/
namespace ChessMachine

structure Engine where
  position : Position := .start
  weights : Weights := .initial
  /-- The depth of a search for which none is given. -/
  depth : Nat := 3

inductive EngineError where
  | failure (cause : Failure)
  | reading (cause : NotationError)
  | encoding (cause : Dataset.EncodingError)
  | file (path : String) (cause : FileError)
  /-- A position command that names no position. -/
  | noPosition

namespace EngineError

def message : EngineError → String
  | failure cause => cause.message
  | reading cause => cause.message
  | encoding cause => cause.message
  | file path cause => cause.message path
  | noPosition => "Expected \"startpos\" or a FEN string"

instance : MonadLift (Except Failure) (Except EngineError) := ⟨Except.mapError failure⟩

instance : MonadLift (Except Fault) (Except EngineError) := ⟨Except.mapError (failure ∘ .fault)⟩

instance : MonadLift (Except Overflow) (Except EngineError) :=
  ⟨Except.mapError (failure ∘ .overflow)⟩

instance : MonadLift (Except NotationError) (Except EngineError) := ⟨Except.mapError reading⟩

instance : MonadLift (Except Dataset.EncodingError) (Except EngineError) :=
  ⟨Except.mapError encoding⟩

end EngineError

/-- What a command did. -/
structure Reply where
  printed : String := ""
  /-- The state after the command. -/
  engine : Engine
  /-- Whether to go on, or why the command failed. -/
  outcome : Except EngineError Bool

namespace Reply

/-- Prints nothing and goes on with a new state, if there is one. -/
def change (e : Engine) : Except EngineError Engine → Reply
  | .ok next => { engine := next, outcome := .ok true }
  | .error err => { engine := e, outcome := .error err }

/-- Prints a text after what is printed in any case, and goes on with the same state. -/
def answer (e : Engine) (before : String) : Except EngineError String → Reply
  | .ok text => { printed := before ++ text, engine := e, outcome := .ok true }
  | .error err => { printed := before, engine := e, outcome := .error err }

end Reply

namespace Engine

def name : String := "tadpole 0.1.0"

/-! ## Answers -/

def moveLine : Option Move → String
  | some m => s!"bestmove {m}\n"
  | none => "bestmove (none)\n"

/-- Searches the current position. At depth zero the move is chosen one ply ahead, and the score
is the evaluation of the position itself. -/
def search (e : Engine) (depth : Nat) : Except Failure SearchResult :=
  if depth = 0 then do
    let best ← e.position.bestMove e.weights
    return { score := ← e.position.evaluate e.weights, best, nodes := 1 }
  else e.position.search e.weights depth

/-- The legal moves, as they come back from the machine. -/
def legalMoves (e : Engine) : Except Failure (List Move) := do
  let moves ← e.position.legalMoves
  MoveList.stream moves

def movesLine (moves : List Move) : String :=
  if moves.isEmpty then "(none)\n" else String.intercalate ", " (moves.map Move.text) ++ "\n"

def shownProgram (e : Engine) : ShownProgram → Except Failure Program
  | .check => do e.position.checkProgram e.position.toMove
  | .eval => do e.position.evalProgram e.weights
  | .moves => do
    let moves ← e.position.legalMoves
    MoveList.program moves

def evalLine (e : Engine) : Except EngineError String := do
  return s!"{← e.position.evaluate e.weights}\n"

/-- The table of contributions, if asked for, and the evaluation. -/
def evalReply (e : Engine) (pretty : Bool) : Reply :=
  if pretty then
    match e.position.evalTable e.weights with
    | .ok table => .answer e (table ++ "\n\nScore: ") e.evalLine
    | .error o => .answer e "" (.error (.failure (.overflow o)))
  else .answer e "" e.evalLine

def splitReply (e : Engine) (depth : Nat) : Reply :=
  let split := e.position.splitPerft true depth
  .answer e split.printed do return s!"\n{← split.total} nodes\n"

/-! ## Changes -/

/-- Reads a position: the start of a game or a notation, and moves played from there. -/
def readPosition (words : List String) : Except EngineError Position := do
  let (setup, rest) := words.span (· ≠ "moves")
  let start : Position ←
    match setup with
    | [] => throw .noPosition
    | ["startpos"] => pure .start
    | fields => Position.ofFen (String.intercalate " " fields)
  let moves ← ((rest.drop 1).mapM Move.ofText : Except NotationError (List Move))
  start.playAll moves

/-- Plays a move, legal or not. -/
def playText (e : Engine) (text : String) : Except EngineError Engine := do
  let m ← Move.ofText text
  return { e with position := ← e.position.play m }

def readGames (files : Files) (path : String) : Except EngineError (List Game) := do
  let bytes ← (files path).mapError (.file path)
  Dataset.ofBytes bytes

def trainReply (e : Engine) (files : Files) (path : String) : Reply :=
  match readGames files path with
  | .error err => .change e (.error err)
  | .ok games =>
    let lesson := e.weights.train games
    .answer { e with weights := lesson.weights } "" do
      return s!"Trained on {← lesson.outcome}/{games.length} games\n"

def execute (files : Files) (e : Engine) : Command → Reply
  | .best => .answer e "" do return moveLine (← e.position.bestMove e.weights)
  | .disasm program => .answer e "" do return (← e.shownProgram program).listing ++ "\n"
  | .display => .answer e "" (.ok (e.position.diagram ++ "\n"))
  | .eval pretty => e.evalReply pretty
  | .exit => { engine := e, outcome := .ok false }
  | .fen => .answer e "" (.ok (e.position.fen ++ "\n"))
  | .go depth => .answer e "" do
    let result ← e.search (depth.getD e.depth)
    return s!"info nodes {result.nodes} score {result.score}\n{moveLine result.best}"
  | .makeMove text => .change e (e.playText text)
  | .moves => .answer e "" do return movesLine (← e.legalMoves)
  | .perft depth => .answer e "" do return s!"{← e.position.perft true depth} nodes\n"
  | .position words => .change e do return { e with position := ← readPosition words }
  | .splitPerft depth => e.splitReply depth
  | .train path => e.trainReply files path

end Engine

end ChessMachine
