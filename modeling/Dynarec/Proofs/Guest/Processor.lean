import Dynarec.Graph.Run
import Dynarec.Guest.Lift
import Mathlib.Tactic

/-!
# The guest processor

A MIPS III processor that executes one instruction at a time, with registers of `n` bits. It is written
down from the instruction tables of the architecture and shares nothing with lifting but the names of
instructions and the numbers of registers. A transfer of control takes effect behind its delay slot;
what a transfer does in a delay slot is left open, and so is every word that is no instruction.
Overflow and misaligned addresses raise no exception, and the results of division by zero are those of
the R4300.
-/
namespace Dynarec.Guest

variable {μ : Type} {n id : Nat}

/-- What answers the accesses of the guest to memory. -/
structure Bus (μ : Type) where
  load : μ → (bytes : Nat) → (addr : UInt64) → Option UInt64 × μ
  store : μ → (bytes : Nat) → (addr x : UInt64) → Bool × μ

namespace Encoding

def opcode (w : BitVec 32) : Nat := (w.extractLsb' 26 6).toNat
def rs (w : BitVec 32) : Nat := (w.extractLsb' 21 5).toNat
def rt (w : BitVec 32) : Nat := (w.extractLsb' 16 5).toNat
def rd (w : BitVec 32) : Nat := (w.extractLsb' 11 5).toNat
def sa (w : BitVec 32) : Nat := (w.extractLsb' 6 5).toNat
def funct (w : BitVec 32) : Nat := (w.extractLsb' 0 6).toNat
def imm (w : BitVec 32) : BitVec 16 := w.extractLsb' 0 16
def index (w : BitVec 32) : BitVec 26 := w.extractLsb' 0 26

/-- A place in the instruction tables. -/
inductive Place where
  | opcode (n : Nat)
  | special (funct : Nat)
  | regimm (rt : Nat)
  | system (rs : Nat)
  | systemFunction (funct : Nat)
deriving DecidableEq

/-- The place of a word. -/
def place (w : BitVec 32) : Place :=
  if opcode w = 0 then .special (funct w)
  else if opcode w = 1 then .regimm (rt w)
  else if opcode w = 16 then if rs w = 16 then .systemFunction (funct w) else .system (rs w)
  else .opcode (opcode w)

def table : List (Place × Mnemonic) :=
  [(.special 0, .sll), (.special 2, .srl), (.special 3, .sra), (.special 4, .sllv),
    (.special 6, .srlv), (.special 7, .srav), (.special 8, .jr), (.special 9, .jalr),
    (.special 12, .syscall), (.special 13, .brk), (.special 15, .sync), (.special 16, .mfhi),
    (.special 17, .mthi), (.special 18, .mflo), (.special 19, .mtlo), (.special 20, .dsllv),
    (.special 22, .dsrlv), (.special 23, .dsrav), (.special 24, .mult), (.special 25, .multu),
    (.special 26, .div), (.special 27, .divu), (.special 30, .ddiv), (.special 31, .ddivu),
    (.special 32, .add), (.special 33, .addu), (.special 34, .sub), (.special 35, .subu),
    (.special 36, .and), (.special 37, .or), (.special 38, .xor), (.special 39, .nor),
    (.special 42, .slt), (.special 43, .sltu), (.special 44, .dadd), (.special 45, .daddu),
    (.special 46, .dsub), (.special 47, .dsubu), (.special 56, .dsll), (.special 58, .dsrl),
    (.special 59, .dsra), (.special 60, .dsll32), (.special 62, .dsrl32), (.special 63, .dsra32),
    (.regimm 0, .bltz), (.regimm 1, .bgez), (.regimm 2, .bltzl), (.regimm 3, .bgezl),
    (.regimm 16, .bltzal), (.regimm 17, .bgezal), (.regimm 18, .bltzall), (.regimm 19, .bgezall),
    (.system 0, .mfc0), (.system 1, .dmfc0), (.systemFunction 24, .eret),
    (.opcode 2, .j), (.opcode 3, .jal), (.opcode 4, .beq), (.opcode 5, .bne), (.opcode 6, .blez),
    (.opcode 7, .bgtz), (.opcode 8, .addi), (.opcode 9, .addiu), (.opcode 10, .slti),
    (.opcode 11, .sltiu), (.opcode 12, .andi), (.opcode 13, .ori), (.opcode 14, .xori),
    (.opcode 15, .lui), (.opcode 20, .beql), (.opcode 21, .bnel), (.opcode 22, .blezl),
    (.opcode 23, .bgtzl), (.opcode 24, .daddi), (.opcode 25, .daddiu), (.opcode 32, .lb),
    (.opcode 33, .lh), (.opcode 35, .lw), (.opcode 36, .lbu), (.opcode 37, .lhu),
    (.opcode 39, .lwu), (.opcode 40, .sb), (.opcode 41, .sh), (.opcode 43, .sw),
    (.opcode 47, .cache), (.opcode 55, .ld), (.opcode 63, .sd)]

/-- The instruction that a word stands for. -/
def decode (w : BitVec 32) : Option Mnemonic :=
  table.lookup (place w)

end Encoding

/-- The registers and the memory. -/
structure Core (n : Nat) (μ : Type) where
  reg : Nat → BitVec n
  memory : μ

namespace Core

/-- Register zero is always 0. -/
def get (d : Core n μ) (id : Nat) : BitVec n :=
  if id = 0 then 0 else d.reg id

def set (d : Core n μ) (id : Nat) (x : BitVec n) : Core n μ :=
  if id = 0 then d else { d with reg := Function.update d.reg id x }

variable (d : Core n μ) (x : BitVec n)

@[simp] theorem get_zero : d.get 0 = 0 := rfl

theorem get_of_ne (h : id ≠ 0) : d.get id = d.reg id := if_neg h

@[simp] theorem set_zero : d.set 0 x = d := rfl

@[simp] theorem memory_set (id : Nat) : (d.set id x).memory = d.memory := by
  unfold set
  split_ifs <;> rfl

theorem reg_set (h : id ≠ 0) (id' : Nat) :
    (d.set id x).reg id' = if id' = id then x else d.reg id' := by
  rw [set, if_neg h]
  exact Function.update_apply _ _ _ _

end Core

/-- What a processor is connected to: the code at a guest address, and memory behind an address
map. -/
structure Board (n : Nat) (μ : Type) where
  start : BitVec n
  code : List UInt8
  bus : Bus μ
  map : AddressMap

namespace Board

open Encoding

variable (B : Board n μ)

/-- The word at an address that is aligned and lies in the code, most significant byte first. -/
def fetch (pc : BitVec n) : Option (BitVec 32) :=
  if pc.toNat % 4 = 0 ∧ B.start.toNat ≤ pc.toNat then
    match B.code.drop (pc.toNat - B.start.toNat) with
    | a :: b :: c :: d :: _ => some (.ofNat 32 (((a.toNat * 256 + b.toNat) * 256 + c.toNat) * 256 + d.toNat))
    | _ => none
  else none

def address (v : BitVec n) : UInt64 :=
  (⟨v.setWidth 64⟩ &&& B.map.mask) + B.map.base

/-- The address that an access is made to. -/
def target (w : BitVec 32) (d : Core n μ) : UInt64 :=
  B.address (d.get (rs w) + (imm w).signExtend n)

def load (w : BitVec 32) (d : Core n μ) (bytes : Nat) (extend : BitVec (8 * bytes) → BitVec n) :
    Option (Core n μ) :=
  match B.bus.load d.memory bytes (B.target w d) with
  | (some x, memory) => some ({ d with memory }.set (rt w) (extend (x.toBitVec.setWidth _)))
  | (none, _) => none

def store (w : BitVec 32) (d : Core n μ) (bytes : Nat) : Option (Core n μ) :=
  let x : BitVec (8 * bytes) := (d.get (rt w)).setWidth _
  match B.bus.store d.memory bytes (B.target w d) ⟨x.setWidth 64⟩ with
  | (true, memory) => some { d with memory }
  | (false, _) => none

end Board

namespace Encoding

def low (x : BitVec n) : BitVec 32 := x.setWidth 32

def wide (x : BitVec 32) : BitVec n := x.signExtend n

/-- Division by zero gives 1 for a negative dividend and -1 for the others. -/
def quotient {k : Nat} (x y : BitVec k) : BitVec k :=
  if y = 0 then (if x.msb then 1 else BitVec.allOnes k) else x.sdiv y

/-- Unsigned division by zero gives all ones. -/
def uquotient {k : Nat} (x y : BitVec k) : BitVec k :=
  if y = 0 then BitVec.allOnes k else x / y

def setHiLo (d : Core n μ) (hi lo : BitVec n) : Core n μ :=
  (d.set Register.lo lo).set Register.hi hi

/-- A comparison as a register has it. -/
def flag (b : Bool) : BitVec n := if b then 1 else 0

/-- Every instruction that does not transfer control. -/
def exec (B : Board n μ) (m : Mnemonic) (w : BitVec 32) (d : Core n μ) : Option (Core n μ) :=
  let x := d.get (rs w)
  let y := d.get (rt w)
  let simm : BitVec n := (imm w).signExtend n
  let zimm : BitVec n := (imm w).setWidth n
  let toRd (v : BitVec n) : Option (Core n μ) := some (d.set (rd w) v)
  let toRt (v : BitVec n) : Option (Core n μ) := some (d.set (rt w) v)
  match m with
  | .sll => toRd (wide (low y <<< sa w))
  | .srl => toRd (wide (low y >>> sa w))
  | .sra => toRd (wide (low (y.sshiftRight (sa w))))
  | .sllv => toRd (wide (low y <<< (x.toNat % 32)))
  | .srlv => toRd (wide (low y >>> (x.toNat % 32)))
  | .srav => toRd (wide (low (y.sshiftRight (x.toNat % 32))))
  | .dsll => toRd (y <<< sa w)
  | .dsrl => toRd (y >>> sa w)
  | .dsra => toRd (y.sshiftRight (sa w))
  | .dsll32 => toRd (y <<< (sa w + 32))
  | .dsrl32 => toRd (y >>> (sa w + 32))
  | .dsra32 => toRd (y.sshiftRight (sa w + 32))
  | .dsllv => toRd (y <<< (x.toNat % 64))
  | .dsrlv => toRd (y >>> (x.toNat % 64))
  | .dsrav => toRd (y.sshiftRight (x.toNat % 64))
  | .mfhi => toRd (d.get Register.hi)
  | .mthi => some (d.set Register.hi x)
  | .mflo => toRd (d.get Register.lo)
  | .mtlo => some (d.set Register.lo x)
  | .mult =>
      let p := (low x).signExtend 64 * (low y).signExtend 64
      some (setHiLo d (wide (p.extractLsb' 32 32)) (wide (p.extractLsb' 0 32)))
  | .multu =>
      let p := (low x).setWidth 64 * (low y).setWidth 64
      some (setHiLo d (wide (p.extractLsb' 32 32)) (wide (p.extractLsb' 0 32)))
  | .div => some (setHiLo d (wide ((low x).srem (low y))) (wide (quotient (low x) (low y))))
  | .divu => some (setHiLo d (wide (low x % low y)) (wide (uquotient (low x) (low y))))
  | .ddiv => some (setHiLo d (x.srem y) (quotient x y))
  | .ddivu => some (setHiLo d (x % y) (uquotient x y))
  | .add | .addu => toRd (wide (low x + low y))
  | .sub | .subu => toRd (wide (low x - low y))
  | .dadd | .daddu => toRd (x + y)
  | .dsub | .dsubu => toRd (x - y)
  | .and => toRd (x &&& y)
  | .or => toRd (x ||| y)
  | .xor => toRd (x ^^^ y)
  | .nor => toRd (~~~(x ||| y))
  | .slt => toRd (flag (x.slt y))
  | .sltu => toRd (flag (x.ult y))
  | .addi | .addiu => toRt (wide (low x + (imm w).signExtend 32))
  | .daddi | .daddiu => toRt (x + simm)
  | .slti => toRt (flag (x.slt simm))
  | .sltiu => toRt (flag (x.ult simm))
  | .andi => toRt (x &&& zimm)
  | .ori => toRt (x ||| zimm)
  | .xori => toRt (x ^^^ zimm)
  | .lui => toRt (wide ((imm w).setWidth 32 <<< 16))
  | .lb => B.load w d 1 fun v => v.signExtend n
  | .lh => B.load w d 2 fun v => v.signExtend n
  | .lw => B.load w d 4 fun v => v.signExtend n
  | .lbu => B.load w d 1 fun v => v.setWidth n
  | .lhu => B.load w d 2 fun v => v.setWidth n
  | .lwu => B.load w d 4 fun v => v.setWidth n
  | .ld => B.load w d 8 fun v => v.setWidth n
  | .sb => B.store w d 1
  | .sh => B.store w d 2
  | .sw => B.store w d 4
  | .sd => B.store w d 8
  | .mfc0 => toRt (wide (low (d.get (Register.system (rd w)))))
  | .dmfc0 => toRt (d.get (Register.system (rd w)))
  | .sync | .cache => some d
  | _ => none

/-- How an instruction uses the bus, and the bytes it moves. -/
inductive Access where
  | none
  | load (bytes : Nat)
  | store (bytes : Nat)
deriving DecidableEq

def access : Mnemonic → Access
  | .lb | .lbu => .load 1
  | .lh | .lhu => .load 2
  | .lw | .lwu => .load 4
  | .ld => .load 8
  | .sb => .store 1
  | .sh => .store 2
  | .sw => .store 4
  | .sd => .store 8
  | _ => .none

/-- What stops the processor at an access that the bus refuses, and the state it is left in. -/
def refusal (B : Board n μ) (m : Mnemonic) (w : BitVec 32) (d : Core n μ) :
    RunCause × Core n μ :=
  let a := B.target w d
  match access m with
  | .none => (.unknownInstr, d)
  | .load bytes => (.loadFault a, { d with memory := (B.bus.load d.memory bytes a).2 })
  | .store bytes =>
      let x : BitVec (8 * bytes) := (d.get (rt w)).setWidth _
      (.storeFault a, { d with memory := (B.bus.store d.memory bytes a ⟨x.setWidth 64⟩).2 })

/-- Whether a branch is taken, by its two registers; nothing if the instruction is no branch. -/
def taken? (m : Mnemonic) (x y : BitVec n) : Option Bool :=
  match m with
  | .beq | .beql => some (x == y)
  | .bne | .bnel => some (x != y)
  | .bltz | .bltzl | .bltzal | .bltzall => some (x.slt 0)
  | .bgez | .bgezl | .bgezal | .bgezall => some (!x.slt 0)
  | .blez | .blezl => some (x.sle 0)
  | .bgtz | .bgtzl => some (!x.sle 0)
  | _ => none

/-- A branch whose delay slot is nullified when it is not taken. -/
def isLikely : Mnemonic → Bool
  | .beql | .bnel | .blezl | .bgtzl | .bltzl | .bgezl | .bltzall | .bgezall => true
  | _ => false

/-- A transfer that keeps the address behind its delay slot. -/
def isLinking : Mnemonic → Bool
  | .bltzal | .bgezal | .bltzall | .bgezall | .jal | .jalr => true
  | _ => false

end Encoding

/-- A processor in front of the instruction at `pc`. In a delay slot `target` is where it goes on
behind it. -/
structure Processor (n : Nat) (μ : Type) extends Core n μ where
  pc : BitVec n
  target : Option (BitVec n) := none

namespace Processor

open Encoding

variable (B : Board n μ)

/-- The registers behind a link to register `id`. -/
def linked (M : Processor n μ) (m : Mnemonic) (id : Nat) : Core n μ :=
  if isLinking m then M.toCore.set id (M.pc + 8) else M.toCore

/-- Enters the general exception handler. The address of the instruction is kept unless another
exception is being handled. -/
def exception (M : Processor n μ) (code : BitVec n) : Processor n μ :=
  let cause := M.get (Register.system Register.cause)
  let status := M.get (Register.system Register.status)
  let d := M.toCore.set (Register.system Register.cause) ((cause &&& ~~~0x7c#n) ||| (code <<< 2))
  let d := if status &&& 2 = 0 then d.set (Register.system Register.epc) M.pc else d
  { d.set (Register.system Register.status) (status ||| 2) with
    pc := (0x80000180#32).signExtend n }

/-- Returns from an exception, or from an error if one is being handled. -/
def exceptionReturn (M : Processor n μ) : Processor n μ :=
  let status := M.get (Register.system Register.status)
  if status &&& 4 = 0 then
    { M.toCore.set (Register.system Register.status) (status &&& ~~~2#n) with
      pc := M.get (Register.system Register.epc) }
  else
    { M.toCore.set (Register.system Register.status) (status &&& ~~~4#n) with
      pc := M.get (Register.system Register.errorEpc) }

/-- A transfer of control, outside of a delay slot. -/
def transfer (m : Mnemonic) (w : BitVec 32) (M : Processor n μ) : Option (Processor n μ) :=
  let x := M.get (rs w)
  let slot := M.pc + 4
  match m with
  | .j | .jal =>
      let region := slot &&& ~~~0x0fffffff#n
      some { M.linked m 31 with pc := slot, target := some (region ||| (index w).setWidth n <<< 2) }
  | .jr | .jalr => some { M.linked m (rd w) with pc := slot, target := some x }
  | .syscall => some (M.exception 8)
  | .brk => some (M.exception 9)
  | .eret => some M.exceptionReturn
  | _ =>
      match taken? m x (M.get (rt w)) with
      | some true =>
          let offset : BitVec n := (imm w).signExtend n <<< 2
          some { M.linked m 31 with pc := slot, target := some (slot + offset) }
      | some false =>
          some { M.linked m 31 with pc := if isLikely m then M.pc + 8 else slot }
      | none => none

/-- Executes one instruction. -/
def step (M : Processor n μ) : Option (Processor n μ) := do
  let w ← B.fetch M.pc
  let m ← decode w
  if m.is64 = true ∧ n ≠ 64 then none
  else
    match exec B m w M.toCore with
    | some d => some { d with pc := M.target.getD (M.pc + 4) }
    | none => if M.target.isNone then M.transfer m w else none

def steps : Nat → Processor n μ → Option (Processor n μ)
  | 0, M => some M
  | k + 1, M => (M.step B).bind (steps k)

end Processor

end Dynarec.Guest
