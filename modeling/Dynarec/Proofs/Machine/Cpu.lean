import Dynarec.Machine.Decode
import Dynarec.Proofs.Host.Memory

/-!
# A processor

What the instructions do: sixteen registers, four status flags and a flat memory, in which instructions
stand as bytes. Flags that an instruction leaves undefined, and those of multiplications and shifts,
which no code here reads, count as undefined; a condition on them has no outcome. Every access to data
is logged. A processor makes a step or traps: `Cpu.run` says what it comes to after some steps.
-/
namespace Dynarec.Machine

/-- Why the processor does not go on. -/
inductive Trap where
  | invalidOpcode
  | divideError
  /-- What happens is not said here. -/
  | unspecified
deriving DecidableEq

structure Flags where
  carry : Bool
  zero : Bool
  sign : Bool
  overflow : Bool
deriving DecidableEq

/-- One transfer of data between the processor and memory. -/
structure Transfer where
  isWrite : Bool
  addr : UInt64
  bytes : Nat
  /-- What was read or written. -/
  word : UInt64
deriving DecidableEq

def Size.bits : Size → Nat
  | byte => 8
  | word => 16
  | dword => 32
  | qword => 64

/-- Everything but the position in the code. The log has the oldest access first. -/
structure State where
  regs : Reg → UInt64
  flags : Option Flags
  memory : Memory
  log : List Transfer

/-- Whether the flags satisfy a condition; nothing here keeps the parity. -/
def Cond.holds (c : Cond) (f : Flags) : Option Bool :=
  let positive : Option Bool :=
    match c.code.toNat / 2 with
    | 0 => some f.overflow
    | 1 => some f.carry
    | 2 => some f.zero
    | 3 => some (f.carry || f.zero)
    | 4 => some f.sign
    | 6 => some (f.sign != f.overflow)
    | 7 => some (f.zero || f.sign != f.overflow)
    | _ => none
  if c.code.toNat % 2 = 0 then positive else positive.map (!·)

section Words

variable {n : Nat}

def Flags.ofWord (x : BitVec n) : Flags :=
  ⟨false, x == 0, x.msb, false⟩

def Flags.ofSub (x y : BitVec n) : Flags :=
  ⟨x.ult y, x - y == 0, (x - y).msb, BitVec.ssubOverflow x y⟩

def AluOp.result : AluOp → BitVec n → BitVec n → BitVec n
  | add, x, y => x + y
  | or, x, y => x ||| y
  | and, x, y => x &&& y
  | sub, x, y => x - y
  | xor, x, y => x ^^^ y
  | cmp, x, y => x - y

def AluOp.flags : AluOp → BitVec n → BitVec n → Flags
  | add, x, y => ⟨BitVec.uaddOverflow x y, x + y == 0, (x + y).msb, BitVec.saddOverflow x y⟩
  | or, x, y => .ofWord (x ||| y)
  | and, x, y => .ofWord (x &&& y)
  | sub, x, y => .ofSub x y
  | xor, x, y => .ofWord (x ^^^ y)
  | cmp, x, y => .ofSub x y

def ShiftOp.result (x : BitVec n) (count : Nat) : ShiftOp → BitVec n
  | shl => x <<< count
  | shr => x >>> count
  | sar => x.sshiftRight count

/-- Quotient and remainder of a number of two words; none if the quotient does not fit. -/
def divideUnsigned (high low y : BitVec n) : Option (BitVec n × BitVec n) :=
  let x := high.toNat * 2 ^ n + low.toNat
  if y.toNat = 0 ∨ 2 ^ n ≤ x / y.toNat then none
  else some (BitVec.ofNat n (x / y.toNat), BitVec.ofNat n (x % y.toNat))

/-- The same for signed numbers. Quotients go toward zero. -/
def divideSigned (high low y : BitVec n) : Option (BitVec n × BitVec n) :=
  let x := high.toInt * 2 ^ n + low.toNat
  let q := x.tdiv y.toInt
  if y.toInt = 0 ∨ 2 * q < -2 ^ n ∨ 2 ^ n ≤ 2 * q then none
  else some (BitVec.ofInt n q, BitVec.ofInt n (x.tmod y.toInt))

end Words

/-- How far a shift goes: the count modulo the width, and modulo 32 for the shorter operands. -/
def shiftCount (size : Size) (n : Nat) : Nat :=
  n % if size = .qword then 64 else 32

/-- A register after its low part is set. Four bytes clear the upper half, fewer leave the rest. -/
def Size.merge (old : UInt64) : (size : Size) → BitVec size.bits → UInt64
  | byte, x => ⟨(old.toBitVec >>> 8 <<< 8) ||| x.setWidth 64⟩
  | word, x => ⟨(old.toBitVec >>> 16 <<< 16) ||| x.setWidth 64⟩
  | dword, x => ⟨x.setWidth 64⟩
  | qword, x => ⟨x⟩

namespace State

def setReg (s : State) (r : Reg) (x : UInt64) : State :=
  { s with regs := Function.update s.regs r x }

def low (s : State) (size : Size) (r : Reg) : BitVec size.bits :=
  (s.regs r).toBitVec.setWidth _

def setLow (s : State) (size : Size) (r : Reg) (x : BitVec size.bits) : State :=
  s.setReg r (size.merge (s.regs r) x)

def address (s : State) (m : Mem) : UInt64 :=
  s.regs m.base + m.disp.toInt64.toUInt64

def read (s : State) (a : UInt64) (n : Nat) : UInt64 × State :=
  let x := s.memory.read a n
  (x, { s with log := s.log ++ [⟨false, a, n, x⟩] })

def write (s : State) (a : UInt64) (n : Nat) (x : UInt64) : State :=
  { s with memory := s.memory.write a n x, log := s.log ++ [⟨true, a, n, x⟩] }

def get (s : State) (size : Size) : Operand → BitVec size.bits × State
  | .reg r => (s.low size r, s)
  | .mem m =>
      let r := s.read (s.address m) size.bytes
      (r.1.toBitVec.setWidth _, r.2)

def set (s : State) (size : Size) (x : BitVec size.bits) : Operand → State
  | .reg r => s.setLow size r x
  | .mem m => s.write (s.address m) size.bytes ⟨x.setWidth 64⟩

def holds (s : State) (c : Cond) : Except Trap Bool :=
  match s.flags.bind c.holds with
  | some b => .ok b
  | none => .error .unspecified

def push (s : State) (x : UInt64) : State :=
  let top := s.regs .rsp - 8
  (s.setReg .rsp top).write top 8 x

def pop (s : State) : UInt64 × State :=
  let r := s.read (s.regs .rsp) 8
  (r.1, r.2.setReg .rsp (s.regs .rsp + 8))

/-- Sets the accumulator to a quotient and `rdx` to a remainder. -/
def setQuotient (s : State) (size : Size) :
    Option (BitVec size.bits × BitVec size.bits) → Except Trap State
  | some (q, r) => .ok { (s.setLow size .rax q).setLow size .rdx r with flags := none }
  | none => .error .divideError

def shift (s : State) (op : ShiftOp) (size : Size) (rm : Operand) (count : Nat) : State :=
  let r := s.get size rm
  let s := r.2.set size (op.result r.1 count) rm
  if count = 0 then s else { s with flags := none }

end State

namespace Instr

open State

/-- What an instruction does that is followed by the next one. Jumps, calls and returns are not among
them. -/
def exec (i : Instr) (s : State) : Except Trap State :=
  match i with
  | movTo size dst src => .ok (s.set size (s.low size src) dst)
  | movFrom size dst src =>
      let r := s.get size src
      .ok (r.2.setLow size dst r.1)
  | movImm32 dst x => .ok (s.setReg dst x.toUInt64)
  | movImm64 dst x => .ok (s.setReg dst x)
  | movImm size dst x => .ok (s.set size (x.toBitVec.signExtend _) dst)
  | movzx size dst src =>
      let r := s.get size.size src
      .ok (r.2.setReg dst ⟨r.1.setWidth 64⟩)
  | movsx size dst src =>
      let r := s.get size.size src
      .ok (r.2.setReg dst ⟨r.1.signExtend 64⟩)
  | movsxd dst src =>
      let r := s.get .dword src
      .ok (r.2.setReg dst ⟨r.1.signExtend 64⟩)
  | alu op size dst src =>
      let r := s.get size src
      let x := s.low size dst
      let s := if op = .cmp then r.2 else r.2.setLow size dst (op.result x r.1)
      .ok { s with flags := some (op.flags x r.1) }
  | aluImm op size dst y =>
      let r := s.get size dst
      let y := y.toBitVec.signExtend _
      let s := if op = .cmp then r.2 else r.2.set size (op.result r.1 y) dst
      .ok { s with flags := some (op.flags r.1 y) }
  | test size rm reg =>
      let r := s.get size rm
      .ok { r.2 with flags := some (.ofWord (r.1 &&& s.low size reg)) }
  | imul size dst src =>
      let r := s.get size src
      .ok { r.2.setLow size dst (s.low size dst * r.1) with flags := none }
  | unary .not size rm =>
      let r := s.get size rm
      .ok (r.2.set size (~~~r.1) rm)
  | unary .neg size rm =>
      let r := s.get size rm
      .ok { r.2.set size (-r.1) rm with flags := some (.ofSub 0 r.1) }
  | unary .div size rm =>
      if size = .byte then .error .unspecified
      else
        let r := s.get size rm
        r.2.setQuotient size (divideUnsigned (s.low size .rdx) (s.low size .rax) r.1)
  | unary .idiv size rm =>
      if size = .byte then .error .unspecified
      else
        let r := s.get size rm
        r.2.setQuotient size (divideSigned (s.low size .rdx) (s.low size .rax) r.1)
  | shiftCl op size rm => .ok (s.shift op size rm (shiftCount size (s.low .byte .rcx).toNat))
  | shiftImm op size rm n => .ok (s.shift op size rm (shiftCount size n.toNat))
  | setcc c rm => do
      let b ← s.holds c
      return s.set .byte (BitVec.ofBool b |>.setWidth _) rm
  | cdq => .ok (s.setLow .dword .rdx ((s.low .dword .rax).sshiftRight 31))
  | cqo => .ok (s.setLow .qword .rdx ((s.low .qword .rax).sshiftRight 63))
  | lea dst m => .ok (s.setReg dst (s.address m))
  | push r => .ok (s.push (s.regs r))
  | pop r => .ok (s.pop.2.setReg r s.pop.1)
  | nop => .ok s
  | ud2 => .error .invalidOpcode
  | call _ | ret | jmp _ | jcc _ _ => .error .unspecified

/-- The constants of one move are the words whose upper half repeats a sign. -/
theorem fitsImm32_iff {x : UInt64} :
    fitsImm32 x = true ↔ (⟨x.toUInt32.toInt32.toBitVec.signExtend 64⟩ : UInt64) = x := by
  rw [fitsImm32, beq_iff_eq, eq_comm]
  rfl

/-- Whichever move of a constant is the shortest, it leaves the constant in the register. -/
theorem exec_loadImm (dst : Reg) (x : UInt64) (s : State) :
    (loadImm dst x).exec s = .ok (s.setReg dst x) := by
  unfold loadImm
  split_ifs with h32 hfits
  · have hx : x.toUInt32.toUInt64 = x := by
      have hle : x.toNat ≤ 0xffffffff := h32
      apply UInt64.toNat_inj.mp
      rw [UInt32.toNat_toUInt64, UInt64.toNat_toUInt32]
      omega
    show Except.ok (s.setReg dst x.toUInt32.toUInt64) = _
    rw [hx]
  · show Except.ok (s.setReg dst ⟨x.toUInt32.toInt32.toBitVec.signExtend 64⟩) = _
    rw [fitsImm32_iff.mp hfits]
  · rfl

end Instr

/-- A processor that is about to execute the instruction at `rip`. -/
structure Cpu extends State where
  rip : UInt64

namespace Cpu

/-- No instruction is longer. -/
def fetchSize : Nat := 15

/-- What a distance is counted from is the next instruction. -/
def jump (c : Cpu) (next : UInt64) (rel : Int32) : Cpu :=
  { c with rip := next + rel.toInt64.toUInt64 }

def step (c : Cpu) : Except Trap Cpu :=
  match decode (c.memory.range c.rip fetchSize) with
  | none => .error .unspecified
  | some (i, length) =>
      let next := c.rip + length.toUInt64
      match i with
      | .jmp rel => .ok (c.jump next rel)
      | .jcc cond rel => do
          let b ← c.holds cond
          return if b then c.jump next rel else { c with rip := next }
      | .call r => .ok ⟨c.push next, c.regs r⟩
      | .ret => .ok ⟨c.pop.2, c.pop.1⟩
      | i => do return ⟨← i.exec c.toState, next⟩

/-- The processor after `n` steps, or the trap that one of them ends in. -/
def run : Nat → Cpu → Except Trap Cpu
  | 0, c => .ok c
  | n + 1, c => do run n (← c.step)

end Cpu

end Dynarec.Machine
