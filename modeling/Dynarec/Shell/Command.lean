import Dynarec.Fault
import Dynarec.Shell.Flag
import Dynarec.Text.Case

/-!
# Commands

The first argument that is no flag and no value of a flag names the command. Before the command is known
every flag without `=` is taken to have a value.
-/

namespace Dynarec.Shell

def programName : String := "mipsjit"

def versionText : String := "dev (none)"

inductive Command where
  /-- The program without a command. -/
  | top
  | ir
  | asm
  | run
  | verify
  | repl
  | help
  /-- Lists completions of a command line, with descriptions or without. -/
  | complete (describes : Bool)
deriving DecidableEq, Inhabited

inductive Arity where
  | any
  | some
  | none
deriving DecidableEq

namespace Command

def working : List Command :=
  [ir, asm, run, verify, repl]

def name : Command → String
  | top => programName
  | ir => "ir"
  | asm => "asm"
  | run => "run"
  | verify => "verify"
  | repl => "repl"
  | help => "help"
  | complete _ => "__complete"

def path (c : Command) : String :=
  if c = top then programName else programName ++ " " ++ c.name

def shape : Command → String
  | top => programName
  | ir => "ir <word>..."
  | asm => "asm <word>..."
  | run => "run <word>..."
  | verify => "verify <word>..."
  | repl => "repl"
  | help => "help [command]"
  | complete _ => "__complete [command-line]"

def purpose : Command → String
  | top => "MIPS to x86-64 dynamic recompiler"
  | ir => "Print the IR of a region before and after optimization"
  | asm => "Print the x86-64 code generated for a region"
  | run => "Run a region and print the resulting registers"
  | verify => "Compare raw IR, optimized IR and native runs of a region"
  | repl => "Interactive console: hex words run, other lines are JavaScript"
  | help => "Help about any command"
  | complete _ => "Request shell completion choices for the specified command-line"

def arity : Command → Arity
  | top | help => .any
  | ir | asm | run | verify | complete _ => .some
  | repl => .none

/-- Whether the arguments are left as they are, flags included. -/
def isRaw : Command → Bool
  | complete _ => true
  | _ => false

def sharedFlags : List Flag :=
  [.ofText "config" "TOML configuration file" (some 'c') fun o s => { o with config := s },
    .ofText "log" "log level (trace, debug, info, warn, error)" none fun o s => { o with log := s },
    .ofText "debug" "comma separated modules to debug (recompiler,mips,assembler,cache,verify)" none
      fun o s => { o with debug := s },
    .ofText "otlp-endpoint" "export pipeline spans over OTLP/HTTP to host:port" none
      fun o s => { o with endpoint := s },
    .ofInteger "width" "GPR width, 32 or 64 (default from config)" none fun o n => { o with width := n },
    .ofWord "addr" "guest address of the first word" (some "4096") fun o x => { o with addr := x },
    .ofInteger "memory" "guest memory window in bytes (power of two)" (some "65536")
      fun o n => { o with memory := n }]

def registerFlag : Flag :=
  .ofList "reg" "initial register value, name=value (repeatable)"
    fun o s => { o with registers := o.registers ++ [s] }

def helpFlag (c : Command) : Flag :=
  .ofSwitch "help" ("help for " ++ c.name) (some 'h') none fun o b => { o with wantsHelp := b }

def versionFlag : Flag :=
  .ofSwitch "version" ("version for " ++ programName) (some 'v') none
    fun o b => { o with wantsVersion := b }

def ownFlags (c : Command) : List Flag :=
  helpFlag c :: match c with
    | top => [versionFlag]
    | asm =>
        [.ofSwitch "homes" "list the register or stack slot of every variable" none none
          fun o b => { o with showsHomes := b }]
    | run =>
        [registerFlag,
          .ofSwitch "native" "run compiled code when the host supports it" none (some "true")
            fun o b => { o with isNative := b }]
    | verify =>
        [registerFlag,
          .ofSwitch "trace" "print the memory accesses of the reference run" none none
            fun o b => { o with isTracing := b }]
    | _ => []

def flags (c : Command) : List Flag :=
  ownFlags c ++ sharedFlags

def listed : List Command :=
  (help :: working).mergeSort fun a b => a.name ≤ b.name

/-- The command of a name. The one that completes is known only where it can be called. -/
def ofName? (knowsHidden : Bool) (s : String) : Option Command :=
  if knowsHidden ∧ s = "__complete" then some (complete true)
  else if knowsHidden ∧ s = "__completeNoDesc" then some (complete false)
  else listed.find? (·.name == s)

/-- Whether an argument is taken for a flag whose value is the next argument. -/
def swallowsNext (arg : String) : Bool :=
  match arg.toList with
  | '-' :: cs => !cs.contains '=' && (cs.head? == some '-' || arg.utf8ByteSize == 2)
  | _ => false

def isFlag (arg : String) : Bool :=
  arg.toList.head? == some '-'

def words : List String → List String
  | [] => []
  | arg :: rest =>
      if arg = "--" then []
      else if swallowsNext arg then
        match rest with
        | _ :: next :: rest => words (next :: rest)
        | _ => []
      else if arg = "" || isFlag arg then words rest
      else arg :: words rest

def withoutWord (word : String) : List String → List String
  | [] => []
  | arg :: rest =>
      if arg = "--" then arg :: rest
      else if swallowsNext arg then
        match rest with
        | [] => [arg]
        | value :: rest => arg :: value :: withoutWord word rest
      else if arg = word then rest
      else arg :: withoutWord word rest

/-- One row of the table of edit distances: `left` is the entry before, `row` the previous row. -/
def distanceRow (c : UInt8) (left : Nat) : List UInt8 → List Nat → List Nat
  | d :: ds, diagonal :: above :: row =>
      let n := min (min (left + 1) (above + 1)) (diagonal + if c = d then 0 else 1)
      n :: distanceRow c n ds (above :: row)
  | _, _ => []

/-- The least number of bytes to insert, delete or change to get from one word to the other. -/
def distance (s t : List UInt8) : Nat :=
  let start := List.range (t.length + 1)
  let last := s.foldl (fun row c =>
    let first := row.headD 0 + 1
    first :: distanceRow c first t row) start
  (last.getLast?).getD 0

/-- The commands that a mistyped word may have meant. -/
def suggestions (word : String) : List Command :=
  let typed := (Text.lowerText word).toUTF8.toList
  working.filter fun c =>
    let name := c.name.toUTF8.toList
    distance typed name ≤ 2 || typed.isPrefixOf name

def unknownText (word : String) (c : Command) : String :=
  "unknown command " ++ Text.quote word ++ " for " ++ Text.quote c.path

def suggestionText (word : String) : String :=
  let found := suggestions word
  if found.isEmpty then ""
  else "\n\nDid you mean this?\n" ++ String.join (found.map fun c => "\t" ++ c.name ++ "\n")

def find (knowsHidden : Bool) (args : List String) : Except Report (Command × List String) :=
  match words args with
  | [] => .ok (top, args)
  | word :: _ =>
      match ofName? knowsHidden word with
      | some c => .ok (c, withoutWord word args)
      | none => .error (.plain (unknownText word top ++ suggestionText word))

end Command

structure Invocation where
  command : Command
  options : Options
  args : List String

namespace Invocation

/-- Whether the command is carried out, and not only described. -/
def isWork (i : Invocation) : Bool :=
  !i.options.wantsHelp && i.command != .top && i.command != .help

/-- Reads a command line. A command that is not carried out takes any arguments. -/
def parse (args : List String) : Except Report Invocation := do
  let (command, args) ← Command.find true args
  let (options, args) ←
    if command.isRaw then .ok ({}, args)
    else (Flag.readAll command.flags {} args).mapError fun e => .plain e.text
  let i : Invocation := ⟨command, options, args⟩
  if !i.isWork then return i
  match command.arity, args with
  | .some, [] => .error (.plain "requires at least 1 arg(s), only received 0")
  | .none, arg :: _ => .error (.plain (Command.unknownText arg command))
  | _, _ => return i

end Invocation

end Dynarec.Shell
