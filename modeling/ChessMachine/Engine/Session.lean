import ChessMachine.Engine.Arguments
import ChessMachine.Engine.Execute

/-!
# Sessions

A session runs the commands among the arguments of the program and then those on the lines of its
input, until one of them ends it, the input ends, or an overflow breaks it off.

## Main definitions

* `Transcript` — what a session prints and how it ends.
* `Session.run` — a session on given arguments and input.
-/
namespace ChessMachine

structure Transcript where
  stdout : String := ""
  /-- Complaints, each of which ends a line. -/
  errors : List String := []
  broken : Bool := false

namespace Session

def readWords (words : List String) : Reading Command :=
  match Command.ofWords words with
  | .ok command => .command command
  | .error .help => .help
  | .error _ => .rejected

def slices (args : List String) : List (Slice Command) := Slice.split readWords args

def argumentCommands (args : List String) : List Command :=
  (slices args).filterMap fun
    | .command _ command => some command
    | _ => none

def skippedLine (word : String) : String :=
  s!"Skipping unrecognized input {Text.quotedList [word]}:"

/-- Complaints about arguments that start no command. -/
def skippedLines (args : List String) : List String :=
  (slices args).filterMap fun
    | .skipped word => some (skippedLine word)
    | _ => none

/-- What is printed for the calls for help among the arguments. -/
def helpText (args : List String) : String :=
  String.join ((slices args).map fun
    | .help _ => Command.usage ++ "\n"
    | _ => "")

/-- The command on a line of input, if there is one. -/
def lineCommand? (line : String) : Option Command := (Command.ofText (Text.trim line)).toOption

def inputCommands (input : String) : List Command :=
  (input.toList.splitOn '\n').filterMap fun line => lineCommand? (String.ofList line)

def errorLine (e : EngineError) : String := s!"Error: {e.message}"

/-- What to do after a command. -/
inductive Next where
  | goOn
  | stop
  | breakOff

/-- What to do after a command, and the complaint if it failed. -/
def next (reply : Reply) : Next × List String :=
  match reply.outcome with
  | .ok true => (.goOn, [])
  | .ok false => (.stop, [])
  | .error (.failure (.overflow _)) => (.breakOff, [])
  | .error err => (.goOn, [errorLine err])

def runCommands (files : Files) (e : Engine) : List Command → Transcript
  | [] => {}
  | command :: rest =>
    let reply := e.execute files command
    match next reply with
    | (.goOn, errors) =>
      let later := runCommands files reply.engine rest
      { later with stdout := reply.printed ++ later.stdout, errors := errors ++ later.errors }
    | (.stop, errors) => { stdout := reply.printed, errors }
    | (.breakOff, errors) => { stdout := reply.printed, errors, broken := true }

def run (files : Files) (args : List String) (input : String) : Transcript :=
  let t := runCommands files {} (argumentCommands args ++ inputCommands input)
  { t with stdout := helpText args ++ t.stdout, errors := skippedLines args ++ t.errors }

end Session

end ChessMachine
