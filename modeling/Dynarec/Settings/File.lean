import Dynarec.Settings.Basic
import Dynarec.Settings.FileTree
import Dynarec.Text.Case
import Dynarec.Toml.Names

/-!
# Settings files

Settings are kept in a TOML file with one table for each group. A file may leave settings out, which
then keep their defaults, but it may not hold anything else. Keys are read in either case.
-/

namespace Dynarec

inductive LoadError where
  | unreadable (path : String) (e : FileError)
  | malformed
  | invalid (e : SettingsError)
deriving DecidableEq

namespace LoadError

def report : LoadError → Report
  | unreadable path e => .plain ("failed to read config file: " ++ e.text path)
  | malformed => ⟨some .unknownConfig, "failed to parse config file"⟩
  | invalid e => e.report

end LoadError

namespace Settings

abbrev Loaded (α : Type) := Except (Failure LoadError) α

def Loaded.malformed {α : Type} : Loaded α :=
  .error (.error .malformed)

/-- How a setting is kept, with how a value of that type replaces it. -/
inductive Field where
  | whole (set : Int → Settings → Settings)
  | word (set : UInt64 → Settings → Settings)
  | text (set : String → Settings → Settings)

namespace Field

def typeName : Field → String
  | whole _ => "int"
  | word _ => "uint64"
  | text _ => "string"

def assign? (f : Field) (s : Settings) (v : Toml.Value) : Option Settings :=
  match f, v with
  | whole set, .integer digits => (Toml.numeral? digits).map fun n => set n s
  | word set, .integer digits => do
      let n ← Toml.numeral? digits
      if 0 ≤ n then some (set n.toNat.toUInt64 s) else none
  | text set, .text x => some (set x s)
  | _, _ => none

end Field

def fields : List (String × String × Field) :=
  [("backend", "registers", .whole fun n s => { s with space.registers := n }),
    ("backend", "blocks", .whole fun n s => { s with space.blocks := n }),
    ("backend", "instructions", .whole fun n s => { s with space.instructions := n }),
    ("backend", "params", .whole fun n s => { s with space.params := n }),
    ("cache", "page_size", .whole fun n s => { s with cache.pageSize := n }),
    ("cache", "page_count", .whole fun n s => { s with cache.pageCount := n }),
    ("cache", "buffer_size", .whole fun n s => { s with cache.bufferSize := n }),
    ("cache", "map_size", .whole fun n s => { s with cache.mapSize := n }),
    ("mips", "gpr_width", .whole fun n s => { s with guest.width := n }),
    ("mips", "address_base", .word fun x s => { s with guest.base := x }),
    ("mips", "address_mask", .word fun x s => { s with guest.mask := x }),
    ("mips", "max_instructions", .whole fun n s => { s with guest.maxInstructions := n }),
    ("log", "level", .text fun x s => { s with log.level := x }),
    ("log", "modules", .text fun x s => { s with log.modules := x })]

def groupType? (group : String) : Option String :=
  [("backend", "config.Backend"), ("cache", "config.Cache"), ("mips", "config.Mips"),
    ("log", "config.Log")].lookup (Text.lowerText group)

def isGroup (group : String) : Bool :=
  (groupType? group).isSome

def field? (group name : String) : Option Field :=
  (fields.find? fun f => f.1 == Text.lowerText group && f.2.1 == Text.lowerText name).map (·.2.2)

def momentType : Toml.MomentKind → String
  | .date => "toml.LocalDate"
  | .time => "toml.LocalTime"
  | .dateTime => "toml.LocalDateTime"
  | .zoned => "time.Time"

/-- What a value of the wrong type leads to: a point in time that exists ends the load at once, anything
else is a mistake in the file. -/
def refuse {α : Type} (typeName : String) : Toml.Value → Loaded α
  | .moment m =>
      if m.isReal then
        .error (.abort (some ("reflect.Set: value of type " ++ momentType m.kind ++
          " is not assignable to type " ++ typeName)))
      else .malformed
  | _ => .malformed

structure Loading where
  settings : Settings := {}
  names : Toml.Names := {}
  /-- Keys in a table that is no group are passed over. -/
  isSkipping : Bool := false
  /-- Whether something was named that does not exist. -/
  hasUnknown : Bool := false
  /-- Whether one of those names cannot be shown in the report. -/
  isUnshowable : Bool := false

namespace Loading

/-- Notes that a key names nothing. The report shows the file from the first part of the key to the last,
which must therefore stand in the file as they are. -/
def noteUnknown (l : Loading) (key : Toml.Key) : Loaded Loading :=
  match key with
  | [] => .ok { l with hasUnknown := true }
  | [k] => .ok { l with hasUnknown := true, isUnshowable := l.isUnshowable || k.isEscaped }
  | k :: ks =>
      if k.isEscaped || ks.getLast?.any Toml.KeyPart.isEscaped then .error (.abort none)
      else .ok { l with hasUnknown := true }

/-- Sets one setting; `key` is how it was named. -/
def put (l : Loading) (key : Toml.Key) (group name : String) (more : Toml.Path) (v : Toml.Value) :
    Loaded Loading :=
  match field? group name with
  | none => l.noteUnknown key
  | some f =>
      if !more.isEmpty then .malformed
      else
        match f.assign? l.settings v with
        | some settings => .ok { l with settings }
        | none => refuse f.typeName v

def putRows (l : Loading) (group : String) : List (Toml.Key × Toml.Value) → Loaded Loading
  | [] => .ok l
  | (key, v) :: rows => do
      match Toml.pathOf key with
      | [] => l.putRows group rows
      | name :: more => (← l.put key group name more v).putRows group rows

/-- Takes over a value; `key` is how it was named in the current table. -/
def assign (l : Loading) (key : Toml.Key) (v : Toml.Value) : Loaded Loading :=
  match l.names.current ++ Toml.pathOf key with
  | [] => .ok l
  | [group] =>
      match groupType? group with
      | none => l.noteUnknown key
      | some typeName =>
          match v with
          | .table rows => l.putRows group rows
          | v => refuse typeName v
  | group :: name :: more => l.put key group name more v

/-- Whether the head of a table leads to a group or to a setting. -/
def isPlace : Toml.Path → Bool
  | [] => true
  | [group] => isGroup group
  | group :: name :: _ => (field? group name).isSome

/-- Opens a table that is no group, whose keys are passed over. -/
def skip (l : Loading) (key : Toml.Key) : Loaded Loading :=
  { l with isSkipping := true }.noteUnknown key

/-- Takes over one statement. A head below a setting has nothing it could stand for. -/
def step (l : Loading) (st : Toml.Statement) : Loaded Loading :=
  match st with
  | .pair key v =>
      if l.isSkipping then .ok l
      else
        match l.names.add st with
        | none => .malformed
        | some names => { l with names }.assign key v
  | .table key =>
      match l.names.add st with
      | none => .malformed
      | some names =>
          if !isPlace (Toml.pathOf key) then { l with names }.skip key
          else if 2 < key.length then .error (.abort none)
          else .ok { l with names, isSkipping := false }
  | .tables key =>
      match l.names.add st with
      | none => .malformed
      | some names =>
          if !isPlace (Toml.pathOf key) then { l with names }.skip key
          else if 2 < key.length then .error (.abort none)
          else .malformed

def steps (l : Loading) : List Toml.Statement → Loaded Loading
  | [] => .ok l
  | st :: sts => do (← l.step st).steps sts

end Loading

def parse (s : String) : Loaded Settings := do
  let (statements, ok) := Toml.parse s
  let l ← Loading.steps {} statements
  if !ok then .malformed
  else if l.isUnshowable then .error (.abort none)
  else if l.hasUnknown then .malformed
  else do
    l.settings.validate.mapError fun e => .error (.invalid e)
    return l.settings

/-- A string in single quotes, or in double quotes with escapes if it holds a single quote or a control
character. -/
def quoted (s : String) : String :=
  let escaped (c : Char) : List Char :=
    match c with
    | '\\' => ['\\', '\\']
    | '"' => ['\\', '"']
    | '\x08' => ['\\', 'b']
    | '\x0c' => ['\\', 'f']
    | '\n' => ['\\', 'n']
    | '\r' => ['\\', 'r']
    | '\t' => ['\\', 't']
    | c =>
        if Toml.isForbidden c then
          ['\\', 'u'] ++ (Text.padZeros 4 (Text.hexDigits c.toNat)).map Char.toUpper
        else [c]
  if s.toList.any fun c => c == '\'' || Toml.isLineEnd c || Toml.isForbidden c then
    "\"" ++ String.ofList (s.toList.flatMap escaped) ++ "\""
  else "'" ++ s ++ "'"

/-- The text of a settings file. An unsigned setting above the signed range cannot be written. -/
def render (s : Settings) : Option String :=
  let row (name : String) (x : String) := name ++ " = " ++ x ++ "\n"
  let limit : UInt64 := 0x8000000000000000
  if limit ≤ s.guest.base ∨ limit ≤ s.guest.mask then none
  else
    some ("[backend]\n" ++ row "registers" (toString s.space.registers) ++
      row "blocks" (toString s.space.blocks) ++ row "instructions" (toString s.space.instructions) ++
      row "params" (toString s.space.params) ++
      "\n[cache]\n" ++ row "page_size" (toString s.cache.pageSize) ++
      row "page_count" (toString s.cache.pageCount) ++ row "buffer_size" (toString s.cache.bufferSize) ++
      row "map_size" (toString s.cache.mapSize) ++
      "\n[mips]\n" ++ row "gpr_width" (toString s.guest.width) ++
      row "address_base" (toString s.guest.base.toNat) ++
      row "address_mask" (toString s.guest.mask.toNat) ++
      row "max_instructions" (toString s.guest.maxInstructions) ++
      "\n[log]\n" ++ row "level" (quoted s.log.level) ++ row "modules" (quoted s.log.modules))

end Settings

end Dynarec
