import Dynarec.Log.Line

/-!
# Loggers

A logger writes lines from a level on, or discards everything. It can also keep what is logged, at every
level. The program has one logger and switches for its modules, without which the finest two levels are
silent.
-/

namespace Dynarec.Log

structure Record where
  level : String
  module : String
  message : String
  /-- The pairs whose keys are text; a later pair with the same key replaces an earlier one. -/
  attrs : List Attr
deriving DecidableEq, Inhabited

structure Logger where
  /-- The lowest level written, and whether levels are coloured; nothing is written without. -/
  terminal : Option (Level × Bool) := none
  fixed : List String := []
  isRecording : Bool := false
  records : Array Record := #[]
deriving Inhabited

namespace Logger

def isEnabled (l : Logger) (level : Level) : Bool :=
  match l.terminal with
  | some (least, _) => least ≤ level
  | none => false

/-- The pairs to keep: every second argument is a key. -/
def keep : List Arg → List Attr
  | .text k :: x :: rest => (k, x) :: (keep rest)
  | _ :: _ :: rest => keep rest
  | _ => []

def lastWins : List Attr → List Attr
  | [] => []
  | a :: as => if as.any fun b => b.1 == a.1 then lastWins as else a :: lastWins as

def record (l : Logger) (level : Level) (module message : String) (args : List Arg) : Logger :=
  if l.isRecording then
    { l with records := l.records.push ⟨level.name, module, message, lastWins (keep args)⟩ }
  else l

def write (l : Logger) (level : Level) (message : String) (args : List Arg) : Except String String :=
  match l.terminal with
  | none => .ok ""
  | some (least, coloured) =>
      if level < least then .ok "" else lineText coloured level message l.fixed (attrs args)

/-- A logger with further pairs on every line. It starts without records. -/
def extend (l : Logger) (args : List Arg) : Except String Logger :=
  match l.terminal with
  | none => .ok {}
  | some (least, coloured) => do
      let more ← attrTexts coloured (attrs args)
      return { terminal := some (least, coloured), fixed := l.fixed ++ more }

def startRecording (l : Logger) : Logger :=
  { l with isRecording := true, records := #[] }

end Logger

/-- The logger of the program and the switches of its modules. -/
structure Journal where
  logger : Logger := {}
  switches : List (String × Bool) := modules.map (·, false)
deriving Inhabited

namespace Journal

def isKnown (j : Journal) (module : String) : Bool :=
  (j.switches.lookup module).isSome

def isOn (j : Journal) (module : String) : Bool :=
  (j.switches.lookup module).getD false

def switch (j : Journal) (isOn : Bool) (module : String) : Journal :=
  { j with switches := (module, isOn) :: j.switches.filter fun s => s.1 != module }

def enable (j : Journal) (list : String) : Journal :=
  (moduleList list).foldl (switch · true) j

def log (j : Journal) (level : Level) (module message : String) (args : List Arg) :
    Except String String × Journal :=
  (j.logger.write level message args, { j with logger := j.logger.record level module message args })

/-- Logs for a module: the finest two levels only if it is switched on, and then with its name. -/
def logFor (j : Journal) (level : Level) (module message : String) (args : List Arg) :
    Except String String × Journal :=
  if Level.info ≤ level then j.log level module message args
  else if j.isOn module then j.log level module message (.text "module" :: .text module :: args)
  else (.ok "", j)

end Journal

end Dynarec.Log
