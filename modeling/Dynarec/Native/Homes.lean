import Dynarec.Fault
import Dynarec.Graph.Basic
import Dynarec.Machine.Instr

/-!
# Homes of variables

Every variable of a graph lives in one place: a register of the pool, a slot of the frame if the pool is
empty where it is defined, or, for a private slot, the address of that slot. Instructions are numbered in
label order. Branches only go forward, so label order covers every path from a definition to its uses,
and a register is free again from the last use of its variable on.
-/

namespace Dynarec.Native

open Machine (Reg Mem)

/-- Where a variable lives. Displacements are from the frame pointer. -/
inductive Home where
  | none
  | reg (r : Reg)
  | spill (disp : Int) (size : Nat)
  | slot (disp : Int) (size : Nat)
deriving DecidableEq, Inhabited

def frameMem (disp : Int) : Mem :=
  ⟨.rbp, Int32.ofInt disp⟩

namespace Home

def text : Home → String
  | none => "-"
  | reg r => r.name
  | spill disp _ => (frameMem disp).text
  | slot disp _ => "&" ++ (frameMem disp).text

end Home

def pool : List Reg :=
  [.rbx, .r12, .r13, .r14, .r15, .rsi, .rdi, .r8, .r9, .r10, .r11]

/-- The room below the frame pointer that the saved registers take. -/
def savedSize : Nat := 8 * Reg.saved.length

/-- A graph names a variable that it does not declare. -/
inductive HomeError where
  | operand (i : Instr) (id : Int)
  | result (i : Instr)
deriving DecidableEq

namespace HomeError

def report : HomeError → Report
  | operand i id =>
      ⟨some .typecheck, Fault.typecheck.under
        (i.text ++ ": variable %" ++ toString id ++ " out of range")⟩
  | result i => ⟨some .typecheck, Fault.typecheck.under (i.text ++ ": result out of range")⟩

end HomeError

/-- For each variable, the instruction that defines it and the last that needs it. -/
structure Lives where
  defs : Array (Option Nat)
  ends : Array Nat

namespace Lives

def declares (l : Lives) (id : Int) : Bool :=
  0 ≤ id && id < l.ends.size

/-- The last of some operands that names an undeclared variable. -/
def undeclared (l : Lives) (vs : List Value) : Option Int :=
  (vs.filterMap fun v =>
    match v with
    | .var _ id => if l.declares id then Option.none else some id
    | .const _ _ => Option.none).getLast?

def use (k : Nat) (l : Lives) : Value → Lives
  | .var _ id => { l with ends := l.ends.setIfInBounds id.toNat k }
  | .const _ _ => l

/-- Instruction `k` defines its result, which lives at least until then. -/
def define (k : Nat) (i : Instr) (l : Lives) : Lives :=
  let v := i.res.toNat
  ⟨l.defs.setIfInBounds v (some k), l.ends.modify v (max k)⟩

def instr (l : Lives) (k : Nat) (i : Instr) : Except HomeError Lives :=
  match l.undeclared i.op.operands with
  | some id => .error (.operand i id)
  | Option.none =>
      let l := i.op.operands.foldl (use k) l
      if !i.hasResult then .ok l
      else if !l.declares i.res then .error (.result i)
      else .ok (l.define k i)

def instrs (l : Lives) (k : Nat) : List Instr → Except HomeError Lives
  | [] => .ok l
  | i :: rest => do (← l.instr k i).instrs (k + 1) rest

def ofGraph (g : Graph) : Except HomeError Lives :=
  let n := g.varCount.toNat
  Lives.instrs ⟨Array.replicate n Option.none, Array.replicate n 0⟩ 0 g.instrs

end Lives

structure Homes where
  lives : Lives
  homes : Array Home
  frame : Nat := 0
  spilled : Nat := 0

abbrev Holders := List (Option Nat)

namespace Homes

def get (h : Homes) (id : Int) : Home :=
  (entryAt? h.homes id).getD .none

/-- A register is given back when its variable is not needed after instruction `k`. -/
def release (h : Homes) (k : Nat) (p : Holders) : Holders :=
  p.map fun holder =>
    match holder with
    | some v => if (h.lives.ends[v]?).getD 0 ≤ k then Option.none else some v
    | Option.none => Option.none

def take (v : Nat) : List Reg → Holders → Option (Reg × Holders)
  | r :: _, Option.none :: p => some (r, some v :: p)
  | _ :: rs, some u :: p => (take v rs p).map fun (r, p) => (r, some u :: p)
  | _, _ => Option.none

/-- Reserves room in the frame, aligned to its size: the displacement of its lowest byte. -/
def reserve (h : Homes) (size : Nat) : Int × Homes :=
  let offset := (h.frame + size - 1) / size * size
  (-((savedSize + offset + size : Nat) : Int), { h with frame := offset + size })

def put (h : Homes) (v : Nat) (home : Home) : Homes :=
  { h with homes := h.homes.setIfInBounds v home }

def settle (h : Homes) (p : Holders) (i : Instr) : Homes × Holders :=
  let v := i.res.toNat
  match i.op with
  | .alloc t =>
      let (disp, h) := h.reserve t.bytes
      (h.put v (.slot disp t.bytes), p)
  | _ =>
      match take v pool p with
      | some (r, p) => (h.put v (.reg r), p)
      | Option.none =>
          let (disp, h) := h.reserve i.ty.bytes
          ({ h.put v (.spill disp i.ty.bytes) with spilled := h.spilled + 1 }, p)

def assign (h : Homes) (p : Holders) (k : Nat) : List Instr → Homes
  | [] => h
  | i :: rest =>
      let p := h.release k p
      if i.hasResult then
        let (h, p) := h.settle p i
        h.assign p (k + 1) rest
      else h.assign p (k + 1) rest

def entrySize : Nat := 48

def ofGraph (g : Graph) : Except HomeError Homes := do
  let lives ← Lives.ofGraph g
  return assign { lives, homes := Array.replicate g.varCount.toNat .none }
    (pool.map fun _ => Option.none) 0 g.instrs

/-- Whether variable `v` lives in a register that a call does not preserve, is defined before
instruction `k` and needed after it. -/
def isLiveAcross (h : Homes) (k v : Nat) : Option Reg :=
  match h.homes[v]? with
  | some (.reg r) =>
      let before := match (h.lives.defs[v]?).join with | some d => d < k | Option.none => true
      if !r.survivesCall && before && k < (h.lives.ends[v]?).getD 0 then some r else Option.none
  | _ => Option.none

/-- The registers to save around the call at instruction `k`, each once, in order of variables. -/
def liveAcross (h : Homes) (k : Nat) : List Reg :=
  ((List.range h.homes.size).filterMap (h.isLiveAcross k)).eraseDups

def texts (h : Homes) : List String :=
  h.homes.toList.map Home.text

end Homes

end Dynarec.Native
