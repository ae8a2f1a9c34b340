import Dynarec.Host.World

/-!
# Host functions

Functions of the host that guest code can call are kept in a table with a fixed number of slots. Native
code would reach a function through its slot, which forwards at most six arguments. There is no way to
call native code here, so functions have no entry point of their own.
-/

namespace Dynarec

structure HostFunc where
  /-- The number of the registration, which tells two functions apart. -/
  id : Nat
  name : String
  arity : Nat
  impl : Option Host.Impl

structure HostFuncs where
  slots : List (Option HostFunc) := List.replicate 16 none
  /-- The number of registrations so far, also of those that failed. -/
  count : Nat := 0

inductive HostFuncError where
  | arity (name : String) (n : Int)
  | full (slots : Nat)
deriving DecidableEq

namespace HostFuncs

def maxArity : Nat := 6

end HostFuncs

namespace HostFuncError

def report : HostFuncError → Report
  | arity name n =>
      ⟨some .unsupportedCall, Fault.unsupportedCall.under
        (name ++ " takes " ++ toString n ++ " arguments, at most " ++ toString HostFuncs.maxArity ++
          " are forwarded")⟩
  | full n => ⟨some .capacityExceeded, Fault.capacityExceeded.under (toString n ++ " host functions")⟩

end HostFuncError

namespace HostFuncs

def fill (f : HostFunc) : List (Option HostFunc) → Option (List (Option HostFunc))
  | [] => none
  | none :: slots => some (some f :: slots)
  | some g :: slots => (fill f slots).map (some g :: ·)

def register (t : HostFuncs) (name : String) (arity : Int) (impl : Option Host.Impl) :
    Except HostFuncError HostFunc × HostFuncs :=
  let failed := { t with count := t.count + 1 }
  if arity < 0 ∨ maxArity < arity then (.error (.arity name arity), failed)
  else
    let f : HostFunc := ⟨t.count, name, arity.toNat, impl⟩
    match fill f t.slots with
    | none => (.error (.full t.slots.length), failed)
    | some slots => (.ok f, ⟨slots, t.count + 1⟩)

/-- Frees the slot of a registration; nothing happens if it has none. -/
def release (t : HostFuncs) (id : Nat) : HostFuncs :=
  { t with slots := t.slots.map fun slot =>
      match slot with
      | some f => if f.id = id then none else some f
      | none => none }

/-- Calls through a slot. An empty slot answers zero; a slot outside the table or a function without a
body has no answer. -/
def dispatch (t : HostFuncs) (slot : Nat) (args : List UInt64) (h : Host) : Option (UInt64 × Host) :=
  match t.slots[slot]? with
  | none => none
  | some none => some (0, h)
  | some (some f) => f.impl.map fun impl => impl (args.take f.arity) h

end HostFuncs

namespace Host

def canCallNative : Bool := false

def callNative (_entry : UInt64) : Except Report Unit :=
  .error (.ofFault .notSupported)

def emulate (_code : List UInt8) (_entry : UInt64) : Except Report Unit :=
  .error ((Report.ofFault .notSupported).context "sandbox")

end Host

end Dynarec
