import Dynarec.Host.Bytes
import Dynarec.Machine.Lead

/-!
# Arguments of any instruction

Reads the arguments that an opcode asks for: registers of the operand byte or of the opcode, memory with
base, scaled index and displacement, constants and distances. Reading may find that the bytes end inside
the instruction, or that there is no such instruction.
-/

namespace Dynarec.Machine

inductive Unread where
  | cutOff
  | unknown

abbrev Scan := StateT (List UInt8) (Except Unread)

namespace Scan

def unknown {α : Type} : Scan α := throw .unknown

def byte : Scan UInt8 := do
  match ← get with
  | b :: rest =>
      set rest
      return b
  | [] => throw .cutOff

def bytes (n : Nat) : Scan (List UInt8) := do
  let bs ← get
  if bs.length < n then throw .cutOff
  set (bs.drop n)
  return bs.take n

def unsigned (n : Nat) : Scan Int := do
  return (Bytes.toWordLE (← bytes n)).toNat

def signed (n : Nat) : Scan Int := do
  return (← unsigned n).bmod (1 <<< (8 * n))

end Scan

structure Place where
  segment : String := ""
  base : String := ""
  index : String := ""
  scale : Nat := 1
  disp : Int := 0

namespace Place

/-- A displacement that stands alone has a sign only if it is a small negative number. -/
def text (p : Place) : String :=
  let index := if p.index = "" then "" else p.index ++ "*" ++ toString p.scale
  let front := p.base ++ (if p.base ≠ "" ∧ index ≠ "" then "+" else "") ++ index
  let disp :=
    if p.disp = 0 then ""
    else if p.disp < -0x80000000 then Text.hexWord (UInt64.ofInt p.disp)
    else if p.disp < 0 then Text.hexSigned p.disp
    else (if front = "" then "" else "+") ++ Text.hexSigned p.disp
  "[" ++ front ++ disp ++ "]"

end Place

inductive Arg where
  | name (s : String)
  | const (n : Int)
  /-- Memory, with the words in front of its brackets. -/
  | place (sized : String) (p : Place)
  | distance (n : Int)

namespace Arg

def isPlace : Arg → Bool
  | place _ _ => true
  | _ => false

/-- The text of an argument of an instruction of `length` bytes at `pc`. -/
def text (pc : UInt64) (length : Nat) : Arg → String
  | name s => s
  | const n =>
      if -0x80000000 ≤ n ∧ n < 0x80000000 then Text.hexSigned n
      else Text.hexWord (UInt64.ofInt n)
  | place sized p => sized ++ "ptr " ++ p.segment ++ p.text
  | distance n =>
      if pc = 0 then "." ++ (if n < 0 then "" else "+") ++ Text.hexSigned n
      else Text.hexWord (pc + length.toUInt64 + UInt64.ofInt n)

def sizeWord (bytes : Nat) : String :=
  if bytes = 1 then "byte "
  else if bytes = 2 then "word "
  else if bytes = 4 then "dword "
  else if bytes = 8 then "qword "
  else if bytes = 16 then "xmmword "
  else ""

end Arg

/-- A register by number; without a REX byte four of the byte registers are the high bytes of others. -/
def Lead.register (c : Lead) (size : Size) (n : Nat) : String :=
  if size = .byte ∧ c.rex.isNone ∧ 4 ≤ n ∧ n < 8 then
    (["ah", "ch", "dh", "bh"][n - 4]?).getD ""
  else (Reg.ofIndex n).sizedName size

structure Fields where
  field : Nat
  rm : Nat
  /-- Where the operand is, unless it is the register `rm`. -/
  place : Option Place

namespace Fields

/-- The part of a place that a scale byte gives, and whether it has a base. -/
def scaled (c : Lead) (mode : UInt8) (sib : UInt8) : Place × Bool :=
  let index := ((sib >>> 3) &&& 7).toNat + c.indexHigh
  let hasBase := !(mode = 0 && sib &&& 7 = 5)
  let name (n : Nat) := c.register c.addressSize n
  ({ base := if hasBase then name ((sib &&& 7).toNat + c.baseHigh) else ""
     index := if index = 4 then "" else name index
     scale := 1 <<< (sib >>> 6).toNat }, hasBase)

def read (c : Lead) : Scan Fields := do
  let m ← Scan.byte
  let mode := m >>> 6
  let low := m &&& 7
  let field := ((m >>> 3) &&& 7).toNat + c.fieldHigh
  let rm := low.toNat + c.baseHigh
  if mode = 3 then return ⟨field, rm, none⟩
  let (p, hasBase) ←
    if low = 4 then do
      pure (scaled c mode (← Scan.byte))
    else pure ({ base := if mode = 0 ∧ low = 5 then "rip" else c.register c.addressSize rm },
      !(mode = 0 && low = 5))
  let disp ←
    if mode = 1 then Scan.signed 1
    else if mode = 2 ∨ !hasBase then Scan.unsigned 4
    else pure 0
  return ⟨field, rm, some { p with disp, segment := c.segment.getD "" }⟩

end Fields

inductive Spec where
  /-- The operand, of a fixed size. -/
  | rm (size : Size)
  /-- The operand, of the size that the prefixes give. -/
  | rmFull
  /-- The operand: a word in memory, or a register of the size that the prefixes give. -/
  | rmWord
  /-- The operand, for instructions on the stack. -/
  | rmStack
  /-- The number of the operand as a register of eight bytes. -/
  | rmAlways
  | field (size : Size)
  | fieldFull
  | segment
  | control (family : String)
  /-- The register in the opcode. -/
  | low (size : Size)
  | lowFull
  | lowStack
  | accumulator
  | fixed (name : String)
  | one
  /-- Memory of a number of bytes, and nothing else. -/
  | mem (bytes : Nat)
  | offset (bytes : Nat)
  | signed8
  | unsigned8
  | unsigned16
  /-- A signed constant of the size that the prefixes give, four bytes at most. -/
  | constFull
  /-- The same, eight bytes at most. -/
  | constWide
  | rel8
  | rel32
  /-- A register of the stack of floating point registers. -/
  | stack

namespace Spec

def usesFields : Spec → Bool
  | rm _ | rmFull | rmWord | rmStack | rmAlways | field _ | fieldFull | segment | control _ | mem _ => true
  | _ => false

/-- The size of what is pushed and popped. -/
def stackSize (c : Lead) : Size :=
  if c.size = .word then .word else .qword

/-- The operand: a register of one size, or memory of another. -/
def operand (c : Lead) (f : Fields) (size : Size) (memory : Size) : Arg :=
  match f.place with
  | some p => .place (Arg.sizeWord memory.bytes) p
  | none => .name (c.register size f.rm)

def segmentNames : List String := ["es", "cs", "ss", "ds", "fs", "gs"]

def read (c : Lead) (opcode : UInt8) (f : Fields) : Spec → Scan Arg
  | rm size => return operand c f size size
  | rmFull => return operand c f c.size c.size
  | rmWord => return operand c f c.size .word
  | rmStack => return operand c f (stackSize c) (stackSize c)
  | rmAlways => return .name (c.register .qword f.rm)
  | field size => return .name (c.register size f.field)
  | fieldFull => return .name (c.register c.size f.field)
  | segment =>
      match segmentNames[f.field % 8]? with
      | some s => return .name s
      | none => Scan.unknown
  | control family => return .name (family ++ toString f.field)
  | low size => return .name (c.register size ((opcode &&& 7).toNat + c.baseHigh))
  | lowFull => return .name (c.register c.size ((opcode &&& 7).toNat + c.baseHigh))
  | lowStack => return .name (c.register (stackSize c) ((opcode &&& 7).toNat + c.baseHigh))
  | accumulator => return .name (Reg.rax.sizedName c.size)
  | fixed s => return .name s
  | one => return .const 1
  | mem n =>
      match f.place with
      | some p => return .place (Arg.sizeWord n) p
      | none => Scan.unknown
  | offset n => do
      let disp ← if c.isShort then Scan.unsigned 4 else Scan.signed 8
      return .place (Arg.sizeWord n) { segment := c.segment.getD "", disp }
  | signed8 => return .const (← Scan.signed 1)
  | unsigned8 => return .const (← Scan.unsigned 1)
  | unsigned16 => return .const (← Scan.unsigned 2)
  | constFull => return .const (← Scan.signed (min 4 c.size.bytes))
  | constWide => return .const (← Scan.signed c.size.bytes)
  | rel8 => return .distance (← Scan.signed 1)
  | rel32 => return .distance (← Scan.signed 4)
  | stack => return .name ("st" ++ toString (opcode &&& 7).toNat)

end Spec

end Dynarec.Machine
