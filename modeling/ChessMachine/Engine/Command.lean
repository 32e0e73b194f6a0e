import ChessMachine.Text.Blank
import ChessMachine.Text.Numeral

/-!
# Commands

A command is a word and its arguments. Options start with a hyphen, and after `--` every word is
an argument. The words of `position` may look like options from the second one on, and the first
may if it is not a call for help.

## Main definitions

* `Command` — what the engine can be asked to do.
* `UsageError` — why words are no command; a call for help counts as one.
* `Command.ofWords`, `Command.ofText` — reads a command.
-/
namespace ChessMachine

inductive ShownProgram where
  | check
  | eval
  | moves
deriving DecidableEq

inductive Command where
  | best
  | disasm (program : ShownProgram)
  | display
  | eval (pretty : Bool)
  | exit
  | fen
  /-- Searches, to the engine's own depth if none is given. -/
  | go (depth : Option Nat)
  | makeMove (move : String)
  | moves
  | perft (depth : Nat)
  | position (words : List String)
  | splitPerft (depth : Nat)
  | train (path : String)
deriving DecidableEq

inductive UsageError where
  /-- No command at all. -/
  | helpOnNothing
  | help
  | invalidSubcommand
  | unknownArgument
  | missingArgument
  | invalidValue
  | invalidNumber
  /-- An option given twice. -/
  | conflict
  /-- A value for an option that takes none. -/
  | tooManyValues
deriving DecidableEq

inductive Verb where
  | best
  | disasm
  | display
  | eval
  | exit
  | fen
  | go
  | makeMove
  | moves
  | perft
  | position
  | splitPerft
  | train
deriving DecidableEq

namespace Verb

/-- The word of each command, and its other name. -/
def names : List (String × Verb) :=
  [("best", best), ("disasm", disasm), ("disassemble", disasm), ("display", display),
   ("d", display), ("eval", eval), ("exit", exit), ("quit", exit), ("fen", fen), ("go", go),
   ("make-move", makeMove), ("move", makeMove), ("moves", moves), ("perft", perft),
   ("position", position), ("splitperft", splitPerft), ("sperft", splitPerft), ("train", train)]

def ofName? (word : String) : Option Verb := names.lookup word

/-- How many arguments a command takes at most. -/
def arity : Verb → Option Nat
  | best | display | eval | exit | fen | moves => some 0
  | disasm | go | makeMove | perft | splitPerft | train => some 1
  | position => none

end Verb

/-- What the words of a command have given so far. -/
structure Taken where
  values : List String := []
  pretty : Bool := false

namespace Taken

/-- Notes the option `--pretty`, which may be given once. -/
def setPretty (t : Taken) : Except UsageError Taken :=
  if t.pretty then .error .conflict else .ok { t with pretty := true }

end Taken

/-! ## Values -/

namespace ShownProgram

def ofText (text : String) : Except UsageError ShownProgram :=
  if text = "check" then .ok check
  else if text = "eval" then .ok eval
  else if text = "moves" then .ok moves
  else .error .invalidValue

end ShownProgram

namespace Verb

def depthOf (text : String) : Except UsageError Nat :=
  match Text.counter? text with
  | some n => .ok n.toNat
  | none => .error .invalidNumber

/-- The command that a verb makes with what was taken. -/
def command (v : Verb) (t : Taken) : Except UsageError Command :=
  match v, t.values with
  | best, _ => .ok .best
  | disasm, program :: _ => (ShownProgram.ofText program).map .disasm
  | display, _ => .ok .display
  | eval, _ => .ok (.eval t.pretty)
  | exit, _ => .ok .exit
  | fen, _ => .ok .fen
  | go, [] => .ok (.go none)
  | go, depth :: _ => (depthOf depth).map fun n => .go (some n)
  | makeMove, move :: _ => .ok (.makeMove move)
  | moves, _ => .ok .moves
  | perft, depth :: _ => (depthOf depth).map .perft
  | position, word :: words => .ok (.position (word :: words))
  | splitPerft, depth :: _ => (depthOf depth).map .splitPerft
  | train, path :: _ => if path = "" then .error .invalidValue else .ok (.train path)
  | _, [] => .error .missingArgument

/-! ## Options -/

/-- A call for help, which comes after the complaint about a value that was already taken. -/
def help (v : Verb) (t : Taken) : Except UsageError Taken :=
  if t.values.isEmpty then .error .help else v.command t >>= fun _ => .error .help

def letter (v : Verb) (t : Taken) (c : Char) : Except UsageError Taken :=
  if c = 'h' then v.help t
  else if c = 'p' && v = eval then t.setPretty
  else .error .unknownArgument

/-- What a word is to a command. -/
inductive Role where
  | value
  /-- Every further word is a value. -/
  | onlyValues
  | option (t : Taken)

/-- Reads `--name` or, if `attached`, `--name=value`. -/
def longOption (v : Verb) (t : Taken) (name : List Char) (attached : Bool) :
    Except UsageError Role :=
  if name = "help".toList then
    if attached then .error .tooManyValues else (v.help t).map .option
  else if name = "pretty".toList && v = eval then
    if attached then .error .tooManyValues else t.setPretty.map .option
  else if v = position then .ok .value
  else .error .unknownArgument

/-- Finds out what a word is to a command that has already taken some. -/
def role (v : Verb) (t : Taken) (word : String) : Except UsageError Role :=
  if v = position && !t.values.isEmpty then .ok .value
  else
    match word.toList with
    | ['-', '-'] => .ok .onlyValues
    | '-' :: '-' :: rest => v.longOption t (rest.takeWhile (· ≠ '=')) (rest.contains '=')
    | '-' :: c :: rest =>
      if v = position && !(c :: rest).all (· = 'h') then .ok .value
      else ((c :: rest).foldlM v.letter t).map .option
    | _ => .ok .value

def arguments (v : Verb) (onlyValues : Bool) (t : Taken) : List String → Except UsageError Command
  | [] => v.command t
  | word :: rest => do
    match if onlyValues then .ok .value else v.role t word with
    | .error e => throw e
    | .ok .onlyValues => v.arguments true t rest
    | .ok (.option t) => v.arguments false t rest
    | .ok .value =>
      if v.arity.all (t.values.length < ·) then
        v.arguments onlyValues { t with values := t.values ++ [word] } rest
      else throw .unknownArgument

end Verb

/-! ## Whole commands -/

namespace Command

/-- The name at the end of a path, without its extension. -/
def stem? (path : String) : Option String :=
  match ((path.toList.splitOn '/').filter fun part => !part.isEmpty && part ≠ ['.']).getLast? with
  | none => none
  | some name =>
    if name = ['.', '.'] then none
    else
      let start := (name.reverse.dropWhile (· ≠ '.')).reverse.dropLast
      some (String.ofList (if start.isEmpty then name else start))

def ofHelp : List String → UsageError
  | [] => .help
  | [word] => if word = "help" || (Verb.ofName? word).isSome then .help else .invalidSubcommand
  | _ => .invalidSubcommand

def ofVerb : List String → Except UsageError Command
  | [] => .error .helpOnNothing
  | word :: rest =>
    if word = "help" then .error (ofHelp rest)
    else
      match Verb.ofName? word with
      | some v => v.arguments false {} rest
      | none =>
        if word = "--" then
          match rest with
          | [] => .error .helpOnNothing
          | next :: _ =>
            if next = "help" || (Verb.ofName? next).isSome then .error .unknownArgument
            else .error .invalidSubcommand
        else
          match word.toList with
          | '-' :: _ :: _ => .error .unknownArgument
          | _ => .error .invalidSubcommand

/-- Reads the words of a command. The first one may be the path of a file named for the command.
If it names no file, it stands for the engine, and the word after it is passed over too. -/
def ofWords : List String → Except UsageError Command
  | [] => .error .helpOnNothing
  | word :: rest =>
    match stem? word with
    | some name => ofVerb (name :: rest)
    | none => ofVerb (rest.drop 1)

def ofText (line : String) : Except UsageError Command := ofWords (Text.asciiWords line)

def usage : String := "Commands: " ++ String.intercalate ", " (Verb.names.map Prod.fst) ++ "\n"

end Command

end ChessMachine
