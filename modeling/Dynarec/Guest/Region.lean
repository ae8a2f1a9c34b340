import Dynarec.Guest.Lift
import Dynarec.Guest.State

/-!
# Lifting regions

A region is the code that can be reached from an address inside a window of instruction words. Jumps to
known addresses are followed in the same block; a conditional branch ends its block and opens one for
each side. Every path ends by writing the next guest address and leaving. A path stops in front of an
instruction that cannot be lifted, at the end of the window, or when the budget of instructions is
used up. The delay slot of an ordinary branch is lifted in front of it, that of a likely branch at the
head of its taken side.
-/

namespace Dynarec.Guest

structure Lifter where
  map : AddressMap := {}
  /-- At most this many instructions; the default budget if not positive. -/
  maxInstructions : Int := 256
  /-- Called with a cause and an address; without it instructions that raise an exception are not
  lifted. -/
  exception : Option Func := none

def Lifter.defaultBudget : Nat := 256

def Lifter.budget (l : Lifter) : Nat :=
  if l.maxInstructions ≤ 0 then Lifter.defaultBudget else l.maxInstructions.toNat

inductive LiftError where
  | width (ty : Ty)
  | build (e : BuildError)
  | unsupported (addr : UInt64) (word : Word)
deriving DecidableEq

namespace LiftError

def report : LiftError → Report
  | width t => ⟨some .unboundRegister, Fault.unboundRegister.under ("gpr binding " ++ t.text)⟩
  | build e => e.report
  | unsupported addr word =>
      ⟨some .unsupportedInstruction, Fault.unsupportedInstruction.under
        (Text.hexWord addr ++ ": word " ++ Text.hexPadded 8 word.bits.toNat)⟩

end LiftError

/-- The window of code a region is lifted from, and the width it is lifted at. -/
structure CodeWindow where
  width : Ty
  start : UInt64
  code : Array UInt8

namespace CodeWindow

/-- The word at an address that is aligned and lies in the window. -/
def fetch? (c : CodeWindow) (addr : UInt64) : Option Word :=
  let offset := (addr - c.start).toNat
  if addr &&& 3 ≠ 0 then none
  else
    match c.code[offset]?, c.code[offset + 1]?, c.code[offset + 2]?, c.code[offset + 3]? with
    | some a, some b, some d, some e => some (Word.ofBytes a b d e)
    | _, _, _, _ => none

def cut (c : CodeWindow) (addr : UInt64) : UInt64 :=
  addr &&& c.width.mask

end CodeWindow

/-- A block that is still to be filled: the delay slot of a likely branch, if any, and then the code
from an address on. -/
structure Pending where
  label : Int
  addr : UInt64
  delay : Option UInt64 := none

/-- What is left of the budget, how many instructions were lifted, and the blocks opened so far, the
next one first. -/
structure Progress where
  budget : Nat
  count : Nat := 0
  work : List Pending := []

namespace Region

open Builder

variable (l : Lifter) (c : CodeWindow)

def setting : Setting := ⟨c.width, l.map⟩

def isSupported (m : Mnemonic) : Bool :=
  (!m.is64 || c.width = Ty.i64) &&
    match m.control with
    | .exception _ => l.exception.isSome
    | _ => true

def decode? (addr : UInt64) : Option (Mnemonic × Word) := do
  let w ← c.fetch? addr
  let m ← w.decode
  if isSupported l c m then some (m, w) else none

/-- The instruction behind a branch, if it can stand there. -/
def delaySlot? (addr : UInt64) : Option (Mnemonic × Word) :=
  match decode? l c (addr + 4) with
  | some (m, w) => if m.control = .none then some (m, w) else none
  | none => none

/-- Ends a path: the guest goes on at `addr`. -/
def leave (addr : UInt64) : Build Unit := do
  write Register.pc (Value.lit c.width addr)
  exit

/-- Lifts the word at an address whatever it is. -/
def liftAt (addr : UInt64) : Build Unit :=
  match c.fetch? addr with
  | none => pure ()
  | some w =>
      match w.decode with
      | none => pure ()
      | some m => (setting l c).lift w m

/-- The return from an exception, or from an error if one is being handled. -/
def liftReturn : Build Unit := do
  let w := c.width
  let leaveTo (address : Nat) (status : Value) (level : UInt64) : Build Unit := do
    write Register.pc (← read (Register.system address) w)
    write (Register.system Register.status) (← binop .and status (Value.lit w (~~~level)))
    exit
  let status ← read (Register.system Register.status) w
  let bit ← binop .and status (Value.lit w State.errorLevel)
  let isError ← icmp .ne bit (Value.lit w 0)
  let fromException ← newBlock
  let fromError ← newBlock
  br isError fromException fromError
  setBlock fromError
  leaveTo Register.errorEpc status State.errorLevel
  setBlock fromException
  leaveTo Register.epc status State.exceptionLevel

def liftException (cause addr : UInt64) : Build Unit := do
  write Register.pc (Value.lit c.width addr)
  let _ ← call l.exception Ty.void [Value.lit Ty.i64 cause, Value.lit Ty.i64 addr]
  exit

/-- A conditional branch whose delay slot is `slot`; the two blocks it opens, taken side first. -/
def liftBranch (w : Word) (addr : UInt64) (test : Test) (likely link : Bool)
    (slot : Mnemonic × Word) : Build (List Pending) := do
  let s := setting l c
  let cond ← s.test w test
  let after := c.cut (addr + 8)
  if link then Setting.setReg 31 (Value.lit c.width after)
  let target := c.cut (addr + 4 + w.branchOffset)
  if !likely then s.lift slot.2 slot.1
  let notTaken ← newBlock
  let taken ← newBlock
  br cond notTaken taken
  if (← get).error.isSome then return []
  return [⟨taken, target, if likely then some (addr + 4) else none⟩, ⟨notTaken, after, none⟩]

/-- Follows a path from `addr`. A transfer of control needs budget for its delay slot too. -/
def follow (budget count : Nat) (addr : UInt64) : Build Progress := do
  let stop : Build Progress := do
    leave c addr
    return { budget, count }
  if (← get).error.isSome then return { budget, count }
  match decode? l c addr with
  | none => stop
  | some (m, w) =>
      if _h : budget = 0 then stop
      else
        match m.control, delaySlot? l c addr with
        | .none, _ =>
            (setting l c).lift w m
            follow (budget - 1) (count + 1) (c.cut (addr + 4))
        | .exceptionReturn, _ =>
            liftReturn c
            return { budget := budget - 1, count := count + 1 }
        | .exception cause, _ =>
            liftException l c cause addr
            return { budget := budget - 1, count := count + 1 }
        | .jump link, some slot =>
            if budget < 2 then stop
            else
              if link then Setting.setReg 31 (Value.lit c.width (c.cut (addr + 8)))
              (setting l c).lift slot.2 slot.1
              follow (budget - 2) (count + 2)
                (c.cut (((addr + 4) &&& ~~~0x0fffffff) ||| w.target))
        | .jumpRegister link, some slot =>
            if budget < 2 then stop
            else
              let target ← (setting l c).getReg w.rs
              if link then Setting.setReg w.rd (Value.lit c.width (c.cut (addr + 8)))
              (setting l c).lift slot.2 slot.1
              write Register.pc target
              exit
              return { budget := budget - 2, count := count + 2 }
        | .branch test likely link, some slot =>
            if budget < 2 then stop
            else
              let work ← liftBranch l c w addr test likely link slot
              return { budget := budget - 2, count := count + 2, work }
        | _, none => stop
termination_by budget
decreasing_by all_goals omega

def fill (p : Pending) (budget count : Nat) : Build Progress := do
  setBlock p.label
  match p.delay with
  | some slot => liftAt l c slot
  | none => pure ()
  follow l c budget count p.addr

/-- Fills blocks, the one opened last first. A block costs a step and each block opened costs budget,
so `steps` never runs out when it starts at one more than the budget. -/
def fillAll : (steps : Nat) → Progress → Build Progress
  | 0, p => pure p
  | steps + 1, p => do
      match p.work with
      | [] => return p
      | next :: rest =>
          if (← get).error.isSome then return p
          let q ← fill l c next p.budget p.count
          fillAll steps { q with work := q.work ++ rest }

end Region

namespace Lifter

/-- Lifts the region at `addr`; `code` holds the bytes from there on. The workspace is returned also
on failure, since what was built stays in its arenas. -/
def lift (l : Lifter) (space : Workspace) (addr : UInt64) (code : List UInt8) :
    Except LiftError Graph × Workspace :=
  let width := (space.binding 1).ty
  if width ≠ Ty.i32 ∧ width ≠ Ty.i64 then (.error (.width width), space)
  else
    let c : CodeWindow := ⟨width, addr &&& width.mask, code.toArray⟩
    let p₀ : Progress := { budget := l.budget, work := [⟨0, c.start, none⟩] }
    let (p, b) := (Region.fillAll l c (l.budget + 1) p₀).run (Builder.start space)
    match b.finish with
    | .error e => (.error (.build e), b.space)
    | .ok g =>
        if p.count = 0 then
          (.error (.unsupported c.start ((c.fetch? c.start).getD ⟨0⟩)), b.space)
        else (.ok g, b.space)

end Lifter

end Dynarec.Guest
