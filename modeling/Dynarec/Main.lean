import Dynarec.Shell.Action
import Dynarec.Shell.Console

/-!
# The program

Reads the settings file, carries out the command line and prints what it gave. The console reads lines
until the input ends or a line says `exit`.
-/

namespace Dynarec.Shell

def readSettings (o : Options) : IO FileText := do
  if o.config = "" then return .ok ""
  try
    return .ok (← IO.FS.readFile o.config)
  catch e =>
    return .error (match e with
      | .inappropriateType _ code _ => if code = 21 then .directory else .notDirectory
      | .invalidArgument _ _ _ => .badName
      | _ => .missing)

def failureText : Failure Report → String
  | .error r => r.text
  | .abort message => message.getD "aborted"

def showLine (r : Except ConsoleError String) (printed : String) : IO Unit := do
  IO.print printed
  match r with
  | .ok s => if s ≠ "" then IO.print (if s.endsWith "\n" then s else s ++ "\n")
  | .error .script => IO.eprintln "error: not an expression"
  | .error (.failure f) => IO.eprintln ("error: " ++ failureText f)

partial def serveLines (input : IO.FS.Stream) (c : Console) : IO Unit := do
  IO.print "mipsjit> "
  let line ← input.getLine
  if line.isEmpty || Text.trim line = "exit" then return
  let (r, printed, c) := c.line line
  showLine r printed
  serveLines input c

def openConsole (o : Options) (s : Session) : IO Unit := do
  IO.println ("functions: " ++ " ".intercalate (Console.functions.map (·.1)) ++ "; 'exit' quits")
  serveLines (← IO.getStdin) { session := s, addr := o.addr }

def conclude (r : Reply) : IO UInt32 := do
  IO.print r.out
  match r.failure with
  | none => return 0
  | some f =>
      IO.eprintln ("Error: " ++ failureText f)
      return 1

def start (args : List String) : IO UInt32 := do
  match Invocation.parse args with
  | .error r => conclude { failure := some (.error r) }
  | .ok i =>
      let file ← readSettings i.options
      match i.isWork && i.command == .repl, Session.start i.options file with
      | true, .ok s => do
          openConsole i.options s
          return 0
      | _, _ => conclude (i.reply file)

end Dynarec.Shell

def main (args : List String) : IO UInt32 :=
  Dynarec.Shell.start args
