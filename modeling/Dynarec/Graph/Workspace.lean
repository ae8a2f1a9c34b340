import Dynarec.Fault
import Dynarec.Graph.Basic

/-!
# Workspaces

A workspace is what one compilation builds in: a table that binds guest registers to host cells, and
arenas of bounded size for blocks, instructions and call parameters. A register with no width or no
cell is unbound.
-/

namespace Dynarec

structure Binding where
  ty : Ty := Ty.void
  name : String := ""
  cell : UInt64 := 0
deriving DecidableEq, Inhabited

namespace Binding

def isBound (b : Binding) : Bool :=
  b.ty != Ty.void && b.cell != 0

end Binding

structure Arenas where
  blocks : Nat := 0
  instrs : Nat := 0
  params : Nat := 0
deriving DecidableEq, Inhabited

structure Workspace where
  registers : Nat
  /-- The registers up to the last one that was ever bound; those behind them are unbound. -/
  bindings : Array Binding := #[]
  capacity : Arenas
  used : Arenas
deriving Inhabited

inductive WorkspaceError where
  | capacity (registers blocks instrs params : Int)
  | noSuchRegister (id : Int) (count : Nat)
  | registerWidth (id : Int) (ty : Ty)
  | noCell (id : Int)
deriving DecidableEq

namespace WorkspaceError

def fault : WorkspaceError → Fault
  | capacity _ _ _ _ => .badCapacity
  | _ => .badRegister

def detail : WorkspaceError → String
  | capacity r b i p =>
      "registers=" ++ toString r ++ " blocks=" ++ toString b ++ " instrs=" ++ toString i ++
        " params=" ++ toString p
  | noSuchRegister id count => "register " ++ toString id ++ " of " ++ toString count
  | registerWidth id t => "register " ++ toString id ++ " width " ++ toString t.bits
  | noCell id => "register " ++ toString id ++ " has no host location"

def report (e : WorkspaceError) : Report :=
  ⟨some e.fault, e.fault.under e.detail⟩

end WorkspaceError

namespace Workspace

/-- Whether the arenas can be made: a binding takes 32 bytes, a block 24, an instruction 144 and a
parameter 24. -/
def hasRoomFor (registers blocks instrs params : Int) : Bool :=
  Host.canAllocate registers 32 && Host.canAllocate blocks 24 && Host.canAllocate instrs 144 &&
    Host.canAllocate params 24

/-- Only the parameter arena may be empty. -/
def create (registers blocks instrs params : Int) : Except (Failure WorkspaceError) Workspace :=
  if registers ≤ 0 ∨ blocks ≤ 0 ∨ instrs ≤ 0 ∨ params < 0 then
    .error (.error (.capacity registers blocks instrs params))
  else if !hasRoomFor registers blocks instrs params then .error (.abort none)
  else
    .ok {
      registers := registers.toNat
      capacity := ⟨blocks.toNat, instrs.toNat, params.toNat⟩
      used := {} }

def binding (w : Workspace) (id : Int) : Binding :=
  (entryAt? w.bindings id).getD {}

def bindable (t : Ty) : Bool :=
  t = Ty.void || t = Ty.i8 || t = Ty.i16 || t = Ty.i32 || t = Ty.i64

def bind (w : Workspace) (id : Int) (t : Ty) (name : String) (cell : UInt64) :
    Except WorkspaceError Workspace :=
  if id < 0 ∨ (w.registers : Int) ≤ id then .error (.noSuchRegister id w.registers)
  else if !bindable t then .error (.registerWidth id t)
  else if t ≠ Ty.void ∧ cell = 0 then .error (.noCell id)
  else
    let bindings := w.bindings ++ Array.replicate (id.toNat + 1 - w.bindings.size) default
    .ok { w with bindings := bindings.setIfInBounds id.toNat ⟨t, name, cell⟩ }

def registerName (w : Workspace) (id : Int) : String :=
  let name := (w.binding id).name
  if name = "" then Instr.regNumber id else "$" ++ name

/-- Gives every arena back; the bindings stay. -/
def reset (w : Workspace) : Workspace :=
  { w with used := {} }

end Workspace

end Dynarec
