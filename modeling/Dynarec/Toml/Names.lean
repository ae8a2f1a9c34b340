import Dynarec.Toml.Document

/-!
# Names in a document

Every name is defined once. A table that was opened by a head or by dotted keys of an earlier table
cannot be opened again or grown by dotted keys; tables that only lead to others can still be opened. A
list of tables starts each entry with no names.
-/

namespace Dynarec.Toml

inductive NameKind where
  | value
  | table
  | tables
deriving DecidableEq

structure Name where
  path : Path
  kind : NameKind
  isClosed : Bool := false
  /-- Opened by a dotted key of the current table. -/
  isDotted : Bool := false

structure Names where
  known : List Name := []
  current : Path := []

namespace Names

def find? (n : Names) (path : Path) : Option Name :=
  n.known.find? fun e => e.path == path

def set (n : Names) (e : Name) : Names :=
  { n with known := e :: n.known.filter fun x => x.path != e.path }

def isBelow (above path : Path) : Bool :=
  above.length < path.length && path.take above.length == above

/-- The tables that dotted keys of the current table opened are closed when another table starts. -/
def closeDotted (n : Names) : Names :=
  { n with known := n.known.map fun e =>
      if e.isDotted && isBelow n.current e.path then { e with isClosed := true, isDotted := false }
      else e }

def parts (path : Path) : List Path :=
  (List.range (path.length - 1)).map fun k => path.take (k + 1)

/-- Opens the tables that a head leads through. -/
def passThrough (n : Names) : List Path → Option Names
  | [] => some n
  | p :: ps =>
      match n.find? p with
      | none => passThrough (n.set { path := p, kind := .table }) ps
      | some e => if e.kind = .value then none else passThrough n ps

def openTable (n : Names) (path : Path) : Option Names := do
  let n ← passThrough n.closeDotted (parts path)
  let n ←
    match n.find? path with
    | none => some (n.set { path, kind := .table, isClosed := true })
    | some e => if e.kind ≠ .table ∨ e.isClosed then none else some (n.set { e with isClosed := true })
  return { n with current := path }

def openEntry (n : Names) (path : Path) : Option Names := do
  let n ← passThrough n.closeDotted (parts path)
  let n ←
    match n.find? path with
    | none => some (n.set { path, kind := .tables, isClosed := true })
    | some e =>
        if e.kind ≠ .tables then none
        else some { n with known := n.known.filter fun x => !isBelow path x.path }
  return { n with current := path }

/-- Opens the tables that a dotted key leads through. -/
def passDotted (n : Names) : List Path → Option Names
  | [] => some n
  | p :: ps =>
      match n.find? p with
      | none => passDotted (n.set { path := p, kind := .table, isDotted := true }) ps
      | some e => if e.kind ≠ .table ∨ e.isClosed then none else passDotted n ps

def define (n : Names) (key : Path) : Option Names := do
  let paths := (parts key).map (n.current ++ ·)
  let n ← passDotted n paths
  let path := n.current ++ key
  match n.find? path with
  | none => some (n.set { path, kind := .value, isDotted := true })
  | some _ => none

end Names

mutual

/-- Whether the tables inside a value define every name once. -/
def Value.isClean : Value → Bool
  | .list items => areClean items
  | .table rows => rowsClean {} rows
  | _ => true

def areClean : List Value → Bool
  | [] => true
  | v :: vs => v.isClean && areClean vs

def rowsClean (n : Names) : List (Key × Value) → Bool
  | [] => true
  | (k, v) :: rows =>
      match n.define (pathOf k) with
      | none => false
      | some n => v.isClean && rowsClean n rows

end

def Names.add (n : Names) : Statement → Option Names
  | .pair k v =>
      match n.define (pathOf k) with
      | none => none
      | some n => if v.isClean then some n else none
  | .table k => n.openTable (pathOf k)
  | .tables k => n.openEntry (pathOf k)

end Dynarec.Toml
