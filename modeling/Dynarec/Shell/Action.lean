import Dynarec.Check.Harness
import Dynarec.Guest.StateText
import Dynarec.Guest.WordText
import Dynarec.Shell.Completion
import Dynarec.Shell.Help
import Dynarec.Shell.Session

/-!
# What commands do

Each command prints text and may fail. The console needs a terminal and is not run here.
-/

namespace Dynarec.Shell

structure Reply where
  out : String := ""
  failure : Option (Failure Report) := none

namespace Reply

def ofExcept : Except (Failure Report) String → Reply
  | .ok out => { out }
  | .error f => { failure := some f }

end Reply

def paragraph (lines : List String) : String :=
  String.join (lines.map (· ++ "\n"))

namespace Invocation

def code (i : Invocation) : Except (Failure Report) (List UInt8) :=
  (Guest.parseCode i.args).mapError .error

def assignments (i : Invocation) : Except (Failure Report) (List (Nat × UInt64)) :=
  (Guest.parseAssignments i.options.registers).mapError .error

/-- Lists the words of a region and its graph, before and after simplification. That there is no native
code for it is no failure. -/
def listGraph (i : Invocation) (file : FileText) : Except (Failure Report) String := do
  let code ← i.code
  let s ← Session.start i.options file
  let (x, f, _) := s.engine.explain i.options.addr code
  let x := x.getD {}
  if x.simplified = "" then
    match f with
    | some f => throw (Session.reportAll f)
    | none => return ""
  else
    return "; guest\n" ++ paragraph (Guest.listWords i.options.addr code) ++ "; raw\n" ++ x.raw ++ "\n" ++
      x.outline ++ "\n; optimized\n" ++ x.simplified

def homeLines (homes : List String) : List String :=
  ((List.range homes.length).zip homes).filterMap fun (v, h) =>
    if h = "" then none else some ("; %" ++ toString v ++ " -> " ++ h)

def listCode (i : Invocation) (file : FileText) : Except (Failure Report) String := do
  let code ← i.code
  let s ← Session.start i.options file
  match s.engine.explain i.options.addr code with
  | (_, some f, _) => throw (Session.reportAll f)
  | (x, none, _) =>
      let x := x.getD {}
      let homes := if i.options.showsHomes then homeLines (x.homes.getD []) else []
      return paragraph homes ++ paragraph x.assembly

def runRegion (i : Invocation) (file : FileText) : Except (Failure Report) String := do
  let code ← i.code
  let as ← i.assignments
  let s ← Session.start i.options file
  let (r, s) := (s.setAll as).run i.options.addr code i.options.isNative
  r
  return paragraph (Session.state.lines s.host.cells s.width)

def checkOptions (o : Options) (s : Settings) : CheckOptions where
  width := if s.guest.width = 32 then Ty.i32 else Ty.i64
  memorySize := o.memory
  maxInstructions := s.guest.maxInstructions
  isTracing := o.isTracing

def snapshotLines (x : Snapshot) (width : Ty) : List String :=
  let cells := Harness.state.setAll default ((List.range x.registers.length).zip x.registers)
  Harness.state.lines cells width

/-- What a check printed. A difference is shown with the graphs that gave it. -/
def checkReply (o : CheckOptions) (t : Trial) : CheckEnd → Reply
  | .failed e => { failure := some (.error e.report) }
  | .aborted => { failure := some (.abort none) }
  | .differs m =>
      { out := accesses ++ "; raw\n" ++ t.raw ++ "; optimized\n" ++ t.simplified
        failure := some (.error (.plain m.text)) }
  | .agreed =>
      let final := (t.final.map fun x => paragraph (snapshotLines x o.width)).getD ""
      { out := accesses ++ "ok: " ++ ", ".intercalate t.stages ++ "\n" ++ final }
where
  accesses := if o.isTracing then paragraph (t.accesses.map Access.text) else ""

def checkRegion (i : Invocation) (file : FileText) : Except (Failure Report) Reply := do
  let code ← i.code
  let as ← i.assignments
  let s ← i.options.settings file
  let o := checkOptions i.options s
  let h ← (Harness.create o).mapError (Failure.map HarnessError.report)
  let (t, fin, _) := h.check i.options.addr code (Harness.state.setAll default as) []
  return checkReply o (t.getD { raw := "" }) fin

/-- Carries out an invocation. Of the console only the session is started. -/
def reply (i : Invocation) (file : FileText) : Reply :=
  if i.options.wantsHelp then { out := i.command.helpText }
  else
    match i.command with
    | .top =>
        { out := if i.options.wantsVersion then programName ++ " version " ++ versionText ++ "\n"
            else Command.top.helpText }
    | .help => { out := Command.helpOn i.args }
    | .complete describes => { out := Command.completionText describes i.args }
    | .ir => .ofExcept (i.listGraph file)
    | .asm => .ofExcept (i.listCode file)
    | .run => .ofExcept (i.runRegion file)
    | .verify =>
        match i.checkRegion file with
        | .ok r => r
        | .error f => { failure := some f }
    | .repl => .ofExcept ((Session.start i.options file).map fun _ => "")

end Invocation

end Dynarec.Shell
