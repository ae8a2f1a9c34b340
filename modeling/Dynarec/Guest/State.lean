import Dynarec.Graph.Workspace
import Dynarec.Guest.Register
import Dynarec.Host.Cells

/-!
# Guest state

The register file of a guest is a run of doubleword cells in host memory, one for each register in
order of its number. Binding a state to a workspace gives every register its cell at a width; register
zero stays unbound, so it reads as zero and drops writes.
-/

namespace Dynarec.Guest

structure State where
  base : UInt64
deriving DecidableEq, Inhabited

inductive BindError where
  | width (ty : Ty)
  | registers (have_ : Nat)
  | workspace (e : WorkspaceError)
deriving DecidableEq

namespace BindError

def report : BindError → Report
  | width t => ⟨some .unknownConfig, Fault.unknownConfig.under ("gpr width " ++ t.text)⟩
  | registers n =>
      ⟨some .badRegister, Fault.badRegister.under
        ("backend has " ++ toString n ++ " registers, need " ++ toString Register.count)⟩
  | workspace e => e.report

end BindError

namespace State

def cell (s : State) (id : Nat) : UInt64 :=
  s.base + 8 * id.toUInt64

/-- A number past the last register reads as zero. -/
def get (s : State) (c : Cells) (id : Nat) : UInt64 :=
  if id < Register.count then c.read (s.cell id) 8 else 0

/-- A write to register zero or past the last register is dropped. -/
def set (s : State) (c : Cells) (id : Nat) (x : UInt64) : Cells :=
  if id ≠ 0 ∧ id < Register.count then c.write (s.cell id) 8 x else c

def registers (s : State) (c : Cells) (t : Ty) : List UInt64 :=
  (List.range Register.count).map fun id => s.get c id &&& t.mask

def nonzero (s : State) (c : Cells) (t : Ty) : List (Nat × UInt64) :=
  ((List.range Register.count).zip (s.registers c t)).filter fun (_, x) => x != 0

def bindFrom (s : State) (t : Ty) (w : Workspace) : List Nat → Except WorkspaceError Workspace
  | [] => .ok w
  | id :: rest => do
      let w ← if id = 0 then w.bind 0 Ty.void (Register.name 0) 0
        else w.bind id t (Register.name id) (s.cell id)
      bindFrom s t w rest

def bind (s : State) (w : Workspace) (t : Ty) : Except BindError Workspace :=
  if t ≠ Ty.i32 ∧ t ≠ Ty.i64 then .error (.width t)
  else if w.registers < Register.count then .error (.registers w.registers)
  else (bindFrom s t w (List.range Register.count)).mapError .workspace

/-- Where a general exception enters the kernel. -/
def exceptionVector : UInt64 := 0xffffffff80000180

/-- The bits of the status register that say an exception or an error is being handled. -/
def exceptionLevel : UInt64 := 2
def errorLevel : UInt64 := 4

/-- The bits of the cause register that hold the code. -/
def causeCode : UInt64 := 0x7c

/-- Enters the general exception handler. The interrupted address is kept unless another exception is
being handled already. -/
def raise (s : State) (c : Cells) (code at_ : UInt64) : Cells :=
  let put (c : Cells) (id : Nat) (x : UInt64) := c.write (s.cell id) 8 x
  let cause := c.read (s.cell (Register.system Register.cause)) 8
  let status := c.read (s.cell (Register.system Register.status)) 8
  let c := put c (Register.system Register.cause)
    ((cause &&& ~~~causeCode) ||| ((code <<< 2) &&& causeCode))
  let c := if status &&& exceptionLevel = 0 then put c (Register.system Register.epc) at_ else c
  let c := put c (Register.system Register.status) (status ||| exceptionLevel)
  put c Register.pc exceptionVector

end State

end Dynarec.Guest
