import Dynarec.Shell.Command
import Dynarec.Text.Blank

/-!
# Help texts

How a command is called, the commands there are, and the flags, sorted by name and aligned.
-/

namespace Dynarec.Shell

namespace Flag

def valueName : FlagKind → String
  | .text => " string"
  | .list => " stringArray"
  | .integer => " int"
  | .word => " uint"
  | .switch => ""

def front (f : Flag) : String :=
  (match f.letter with
    | some c => "  -" ++ c.toString ++ ", --"
    | none => "      --") ++ f.name ++ valueName f.kind

def table (flags : List Flag) : String :=
  let sorted := flags.mergeSort fun a b => a.name ≤ b.name
  let width := (sorted.map (·.front.length)).foldl max 0
  String.join (sorted.map fun f =>
    Text.padRight width f.front ++ "   " ++ f.purpose ++
      (match f.preset with
        | some s => " (default " ++ s ++ ")"
        | none => "") ++ "\n")

end Flag

namespace Command

def topUsage (flags : List Flag) : String :=
  "Usage:\n  " ++ programName ++ " [command]\n\nAvailable Commands:\n" ++
    String.join (listed.map fun c => "  " ++ Text.padRight 11 c.name ++ " " ++ c.purpose ++ "\n") ++
    "\nFlags:\n" ++ Flag.table flags ++
    "\nUse \"" ++ programName ++ " [command] --help\" for more information about a command.\n"

/-- How to call a command. Flags of its own and shared ones are told apart, but for the program itself. -/
def usage (c : Command) : String :=
  if c = top then topUsage c.flags
  else
    "Usage:\n  " ++ programName ++ " " ++ c.shape ++ " [flags]\n\nFlags:\n" ++ Flag.table c.ownFlags ++
      "\nGlobal Flags:\n" ++ Flag.table sharedFlags

def about (c : Command) : String :=
  if c = help then
    "Help provides help for any command in the application.\nSimply type " ++ programName ++
      " help [path to command] for full details."
  else c.purpose

def helpText (c : Command) : String :=
  c.about ++ "\n\n" ++ c.usage

def helpOn (args : List String) : String :=
  match find false args with
  | .ok (c, _) => c.helpText
  | .error _ =>
      "Unknown help topic [" ++ " ".intercalate (args.map Text.quoteRaw) ++ "]\n" ++
        topUsage sharedFlags

end Command

end Dynarec.Shell
