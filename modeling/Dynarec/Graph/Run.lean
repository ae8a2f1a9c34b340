import Dynarec.Graph.Workspace
import Dynarec.Host.Bytes

/-!
# Running graphs

The interpreter. A graph runs against a world: the host cells its registers are bound to, the bus its
loads and stores go to, and the functions it can call. Variables and private slots belong to the run
itself. A branch must go to a larger label, so every run ends.
-/

namespace Dynarec

/-- What a run can reach besides its own variables and slots. The state `σ` carries everything that
an access may change. -/
structure World (σ : Type) where
  readCell : σ → (cell : UInt64) → (bytes : Nat) → UInt64
  writeCell : σ → (cell : UInt64) → (bytes : Nat) → UInt64 → σ
  load : σ → (bytes : Nat) → (addr : UInt64) → Option UInt64 × σ
  store : σ → (bytes : Nat) → (addr x : UInt64) → Bool × σ
  call : Func → Option (List UInt64 → σ → UInt64 × σ)

inductive RunCause where
  | assertion
  | branchTarget (target : Int)
  | noImplementation
  | loadFault (addr : UInt64)
  | storeFault (addr : UInt64)
  | unboundRead
  | unboundWrite
  | unknownInstr
deriving DecidableEq

namespace RunCause

def fault : RunCause → Fault
  | noImplementation => .unsupportedCall
  | unboundRead | unboundWrite => .unboundRegister
  | _ => .runtime

def text : RunCause → String
  | assertion => "assertion failed"
  | branchTarget t => "bad branch target " ++ toString t
  | noImplementation => "no implementation"
  | loadFault a => "load fault at " ++ Text.hexWord a
  | storeFault a => "store fault at " ++ Text.hexWord a
  | unboundRead => "read"
  | unboundWrite => "write"
  | unknownInstr => "unknown instruction"

end RunCause

inductive RunError where
  | emptyGraph
  | noTerminator (label : Nat)
  | at (i : Instr) (cause : RunCause)
deriving DecidableEq

namespace RunError

def report : RunError → Report
  | emptyGraph => ⟨some .runtime, Fault.runtime.under "empty graph"⟩
  | noTerminator label =>
      ⟨some .runtime, Fault.runtime.under ("block " ++ toString label ++ " has no terminator")⟩
  | .at i cause => ⟨some cause.fault, cause.fault.under (i.text ++ ": " ++ cause.text)⟩

end RunError

/-- How a run ends. `aborted` is left to graphs that name variables they do not declare. -/
inductive Outcome where
  | exited
  | failed (e : RunError)
  | aborted
deriving DecidableEq

structure Frame where
  vars : Array UInt64
  slots : Array UInt8 := #[]
deriving Inhabited

namespace Frame

/-- The address of the first private slot; slots lie outside the guest's bus. -/
def slotBase : UInt64 := 0xffff800000000000

def value? (f : Frame) : Value → Option UInt64
  | .const _ x => some x
  | .var _ id => entryAt? f.vars id

def values? (f : Frame) : List Value → Option (List UInt64)
  | [] => some []
  | v :: vs => do
      let x ← f.value? v
      let xs ← f.values? vs
      return x :: xs

def slot? (f : Frame) (addr : UInt64) (size : Nat) : Option Nat :=
  if addr < slotBase then none
  else
    let offset := (addr - slotBase).toNat
    if f.slots.size < offset + size then none else some offset

/-- Reserves a slot aligned to its size; the address of the slot. -/
def reserve (f : Frame) (t : Ty) : UInt64 × Frame :=
  let size := t.bytes
  let offset := (f.slots.size + size - 1) / size * size
  let grown := f.slots ++ Array.replicate (offset + size - f.slots.size) 0
  (slotBase + offset.toUInt64, { f with slots := grown })

def readSlot (f : Frame) (offset size : Nat) : UInt64 :=
  Bytes.toWordLE ((f.slots.extract offset (offset + min size 8)).toList)

def writeBytes (slots : Array UInt8) (offset : Nat) : List UInt8 → Array UInt8
  | [] => slots
  | b :: bs => writeBytes (slots.setIfInBounds offset b) (offset + 1) bs

def writeSlot (f : Frame) (offset size : Nat) (x : UInt64) : Frame :=
  { f with slots := writeBytes f.slots offset (Bytes.ofWordLE (min size 8) x) }

def assign (f : Frame) (i : Instr) (x : UInt64) : Option Frame :=
  if !i.hasResult then some f
  else if i.res < 0 ∨ (f.vars.size : Int) ≤ i.res then none
  else some { f with vars := f.vars.setIfInBounds i.res.toNat (x &&& i.ty.mask) }

end Frame

inductive Step (σ : Type) where
  | next (f : Frame) (s : σ)
  | jump (label : Nat) (f : Frame) (s : σ)
  | stop (o : Outcome) (s : σ)

namespace Run

variable {σ : Type}

def settle (i : Instr) (f : Frame) (s : σ) (x : UInt64) : Step σ :=
  match f.assign i x with
  | some f => .next f s
  | none => .stop .aborted s

def withValues (f : Frame) (s : σ) (vs : List Value) (k : List UInt64 → Step σ) : Step σ :=
  match f.values? vs with
  | some xs => k xs
  | none => .stop .aborted s

def stopAt (i : Instr) (s : σ) (cause : RunCause) : Step σ :=
  .stop (.failed (.at i cause)) s

def load (W : World σ) (i : Instr) (f : Frame) (s : σ) (addr : UInt64) : Step σ :=
  match f.slot? addr i.ty.bytes with
  | some offset => settle i f s (f.readSlot offset i.ty.bytes)
  | none =>
      match W.load s i.ty.accessBytes addr with
      | (some x, s) => settle i f s x
      | (none, s) => stopAt i s (.loadFault addr)

def store (W : World σ) (i : Instr) (f : Frame) (s : σ) (t : Ty) (addr x : UInt64) : Step σ :=
  match f.slot? addr t.bytes with
  | some offset => .next (f.writeSlot offset t.bytes x) s
  | none =>
      match W.store s t.accessBytes addr x with
      | (true, s) => .next f s
      | (false, s) => stopAt i s (.storeFault addr)

/-- A branch goes to a larger label of the graph. -/
def jump (count label : Nat) (i : Instr) (f : Frame) (s : σ) (target : Int) : Step σ :=
  if target ≤ label ∨ (count : Int) ≤ target then stopAt i s (.branchTarget target)
  else .jump target.toNat f s

def step (W : World σ) (w : Workspace) (count label : Nat) (f : Frame) (s : σ) (i : Instr) :
    Step σ :=
  let pure1 (x : Value) (op : UInt64 → UInt64) : Step σ :=
    match f.value? x with
    | some a => settle i f s (op a)
    | none => .stop .aborted s
  let pure2 (x y : Value) (op : UInt64 → UInt64 → UInt64) : Step σ :=
    match f.value? x, f.value? y with
    | some a, some b => settle i f s (op a b)
    | _, _ => .stop .aborted s
  match i.op with
  | .exit => .stop .exited s
  | .assert c =>
      match f.value? c with
      | none => .stop .aborted s
      | some a => if a = 0 then stopAt i s .assertion else .next f s
  | .br c ifFalse ifTrue =>
      match f.value? c with
      | none => .stop .aborted s
      | some a => jump count label i f s (if a &&& 1 = 0 then ifFalse else ifTrue)
  | .call target params =>
      match target.bind W.call with
      | none => stopAt i s .noImplementation
      | some impl => withValues f s params fun args =>
          let (x, s) := impl args s
          settle i f s x
  | .alloc slot =>
      let (x, f) := f.reserve slot
      settle i f s x
  | .not x => pure1 x (~~~ ·)
  | .binop op x y => pure2 x y (Eval.binop op i.ty)
  | .icmp op x y => pure2 x y fun a b => Eval.ofBool (Eval.cmp op x.ty a b)
  | .load a =>
      match f.value? a with
      | none => .stop .aborted s
      | some addr => load W i f s addr
  | .store a x =>
      match f.value? a, f.value? x with
      | some addr, some v => store W i f s x.ty addr v
      | _, _ => .stop .aborted s
  | .read reg =>
      let b := w.binding reg
      if !b.isBound then stopAt i s .unboundRead
      else settle i f s (W.readCell s b.cell b.ty.accessBytes)
  | .write reg x =>
      let b := w.binding reg
      if !b.isBound then stopAt i s .unboundWrite
      else
        match f.value? x with
        | none => .stop .aborted s
        | some v => .next f (W.writeCell s b.cell b.ty.accessBytes v)
  | .cvt op x => pure1 x (Eval.cvt op x.ty i.ty)
  | .unknown _ => stopAt i s .unknownInstr

def block (W : World σ) (w : Workspace) (count label : Nat) (f : Frame) (s : σ) :
    List Instr → Step σ
  | [] => .stop (.failed (.noTerminator label)) s
  | i :: rest =>
      match step W w count label f s i with
      | .next f s => block W w count label f s rest
      | other => other

def enter (W : World σ) (w : Workspace) (g : Graph) (label : Nat) (f : Frame) (s : σ) :
    Outcome × σ :=
  if h : label < g.blocks.size then
    match block W w g.blocks.size label f s (g.blocks[label]).instrs with
    | .next _ s => (.aborted, s)
    | .jump target f s => if label < target then enter W w g target f s else (.aborted, s)
    | .stop o s => (o, s)
  else (.aborted, s)
termination_by g.blocks.size - label

end Run

namespace Graph

def run {σ : Type} (W : World σ) (w : Workspace) (g : Graph) (s : σ) : Outcome × σ :=
  if g.blocks.isEmpty then (.failed .emptyGraph, s)
  else if !g.hasRoomFor 8 then (.aborted, s)
  else Run.enter W w g 0 { vars := Array.replicate g.varCount.toNat 0 } s

end Graph

end Dynarec
