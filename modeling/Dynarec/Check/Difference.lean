import Dynarec.Guest.Register
import Dynarec.Text.Hex

/-!
# Differences

How two register lists and two memory windows differ, as text. Registers are compared by name, memory in
rows of sixteen bytes; both are listed in the order of their keys as text. Equal sides have no
difference, and the text is empty.
-/

namespace Dynarec.Difference

abbrev Rows := List (String × String)

def sorted (rows : Rows) : Rows :=
  rows.mergeSort fun a b => a.1 ≤ b.1

def line (mark : String) (isLast : Bool) (row : String × String) : String :=
  mark ++ "  \"" ++ row.1 ++ "\": \"" ++ row.2 ++ "\"" ++ (if isLast then "\n" else ",\n")

/-- The lines for the rows of one side that are missing or different in the other; the last row of all
has no comma. -/
def oldLines (got : Rows) : Rows → List String
  | [] => []
  | row :: rest =>
      let isLast := rest.isEmpty
      match got.lookup row.1 with
      | none => line "-" isLast row :: oldLines got rest
      | some x =>
          if x = row.2 then oldLines got rest
          else line "-" isLast row :: line "+" isLast (row.1, x) :: oldLines got rest

def newLines (want got : Rows) : List String :=
  (got.filter fun row => (want.lookup row.1).isNone).map (line "+" true)

def registerRows (regs : List UInt64) : Rows :=
  sorted (regs.mapIdx fun id x => (Guest.Register.name id, Text.hexWord x))

def registerLines (want got : List UInt64) : List String :=
  let w := registerRows want
  let g := registerRows got
  oldLines g w ++ newLines w g

def registers (want got : List UInt64) : String :=
  String.join (registerLines want got)

def rowSize : Nat := 16

def memoryRows (offset : Nat) (bytes : List UInt8) : Rows :=
  match bytes with
  | [] => []
  | b :: bs =>
      (Text.hexPadded 4 offset, Text.hexBytes ((b :: bs).take rowSize)) ::
        memoryRows (offset + rowSize) ((b :: bs).drop rowSize)
termination_by bytes.length
decreasing_by
  rw [List.length_drop, List.length_cons, rowSize]
  omega

/-- What happened to the row of a key: nothing if it is equal on both sides. -/
def rowText (want got : Rows) (key : String) : Option String :=
  let quoted (s : String) := "\"" ++ s ++ "\""
  match want.lookup key, got.lookup key with
  | some x, some y =>
      if x = y then none else some (quoted key ++ ": ~ " ++ quoted x ++ " => " ++ quoted y)
  | some x, none => some ("- " ++ quoted key ++ ": " ++ quoted x)
  | none, some y => some ("+ " ++ quoted key ++ ": " ++ quoted y)
  | none, none => none

def skipped (n : Nat) : String :=
  "\x1b[0;90m...skipped " ++ toString n ++ (if n = 1 then " object property" else " object properties") ++
    "...\x1b[0m"

/-- The entries to list; `equal` counts the equal rows just before. -/
def entries (equal : Nat) : List (Option String) → List String
  | [] => if equal = 0 then [] else [skipped equal]
  | none :: rest => entries (equal + 1) rest
  | some text :: rest =>
      if equal = 0 then text :: entries 0 rest else skipped equal :: text :: entries 0 rest

def memory (want got : List UInt8) : String :=
  let w := memoryRows 0 want
  let g := memoryRows 0 got
  let keys := (w ++ g.filter fun row => (w.lookup row.1).isNone).map Prod.fst
  let rows := (keys.mergeSort fun a b => a ≤ b).map (rowText w g)
  if rows.all Option.isNone then ""
  else "\x7b\n" ++ ",\n".intercalate ((entries 0 rows).map ("    " ++ ·)) ++ "\n\x7d"

end Dynarec.Difference
