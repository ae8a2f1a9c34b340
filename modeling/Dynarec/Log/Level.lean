import Dynarec.Fault
import Dynarec.Text.Blank
import Dynarec.Text.Cut

/-!
# Log levels and modules

A level is a number; six of them have names. The modules of the program can be switched on one by one
for the finest levels.
-/

namespace Dynarec.Log

abbrev Level := Int

namespace Level

def trace : Level := -8
def debug : Level := -4
def info : Level := 0
def warn : Level := 4
def error : Level := 8
def crit : Level := 12

/-- Below every level. -/
def max : Level := -0x8000000000000000

def name (l : Level) : String :=
  if l = trace then "trace"
  else if l = debug then "debug"
  else if l = info then "info"
  else if l = warn then "warn"
  else if l = error then "error"
  else if l = crit then "crit"
  else "unknown"

/-- The name in capitals, five characters wide. -/
def aligned (l : Level) : String :=
  if l = trace then "TRACE"
  else if l = debug then "DEBUG"
  else if l = info then "INFO "
  else if l = warn then "WARN "
  else if l = error then "ERROR"
  else if l = crit then "CRIT "
  else "unknown level"

/-- The capital of a character, exact for all whose capital is a letter from A to Z: besides the small
ones these are the dotless i and the long s. -/
def capital (c : Char) : Char :=
  if c == 'ı' then 'I' else if c == 'ſ' then 'S' else c.toUpper

def ofText? (s : String) : Option Level :=
  match String.ofList (s.toList.map capital) with
  | "MAX" | "MAXVERBOSITY" => some max
  | "TRACE" => some trace
  | "DEBUG" => some debug
  | "INFO" => some info
  | "WARN" | "WARNING" => some warn
  | "ERROR" => some error
  | "CRIT" | "CRITICAL" => some crit
  | _ => none

def parse (s : String) : Except Report Level :=
  match ofText? s with
  | some l => .ok l
  | none => .error (.plain ("invalid level: " ++ s))

end Level

def modules : List String :=
  ["recompiler", "mips", "assembler", "cache", "verify"]

def moduleList (s : String) : List String :=
  ((Text.split ',' s).map Text.trim).filter (· ≠ "")

end Dynarec.Log
