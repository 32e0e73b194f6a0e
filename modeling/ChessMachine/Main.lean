import ChessMachine.Engine.Session

/-!
# The program

Runs the commands among the arguments, and then those that are typed in, line by line.
-/
namespace ChessMachine

namespace Session

/-- Opens the file that a command asks for. -/
def filesFor (command : Command) : IO Files := do
  match command with
  | .train path =>
    try
      let bytes ← IO.FS.readBinFile path
      return fun _ => .ok bytes
    catch
      | .noFileOrDirectory .. => return fun _ => .error .missing
      | err => return fun _ => .error (.unopened (toString err))
  | _ => return fun _ => .error .missing

/-- Executes a command and shows what it printed. -/
def perform (e : Engine) (command : Command) : IO (Engine × Next) := do
  let reply := e.execute (← filesFor command) command
  IO.print reply.printed
  let (following, errors) := next reply
  for line in errors do
    IO.eprintln line
  (← IO.getStdout).flush
  return (reply.engine, following)

/-- Executes the commands on the lines that are typed in. -/
partial def listen (e : Engine) : IO UInt32 := do
  let line ← (← IO.getStdin).getLine
  if line.isEmpty then return 0
  match lineCommand? line with
  | none => listen e
  | some command =>
    match ← perform e command with
    | (e, .goOn) => listen e
    | (_, .stop) => return 0
    | (_, .breakOff) => return 101

/-- Executes commands and then listens. -/
def obey (e : Engine) : List Command → IO UInt32
  | [] => listen e
  | command :: rest => do
    match ← perform e command with
    | (e, .goOn) => obey e rest
    | (_, .stop) => return 0
    | (_, .breakOff) => return 101

end Session

end ChessMachine

def main (args : List String) : IO UInt32 := do
  for line in ChessMachine.Session.skippedLines args do
    IO.eprintln line
  IO.print (ChessMachine.Session.helpText args)
  ChessMachine.Session.obey {} (ChessMachine.Session.argumentCommands args)
