import Dynarec.Graph.Builder
import Dynarec.Guest.Mnemonic
import Dynarec.Guest.Register

/-!
# Lifting single instructions

Every instruction that does not transfer control becomes a short run of operations on the bound
registers. A 32-bit operation works on the low words and sign-extends its result, which changes nothing
when registers are 32 bits wide. Operands are read also where the result goes to register zero, unless
the instruction decides that first.
-/

namespace Dynarec.Guest

/-- How guest memory is reached: the host address is the masked guest address plus a base. -/
structure AddressMap where
  base : UInt64 := 0
  mask : UInt64 := -1
deriving DecidableEq, Inhabited

structure Setting where
  width : Ty
  map : AddressMap

namespace Setting

open Builder

variable (c : Setting)

def lit (x : UInt64) : Value := Value.lit c.width x

def getReg (n : Nat) : Build Value := read n c.width

def setReg (n : Nat) (v : Value) : Build Unit :=
  if n = 0 then pure () else write n v

/-- The low word of a register; the register itself if it is 32 bits wide. -/
def low (v : Value) : Build Value := trunc Ty.i32 v

def widen (v : Value) : Build Value := sext c.width v

def alu (rd : Nat) (op : BinOp) (x y : Value) : Build Unit := do
  if rd ≠ 0 then setReg rd (← binop op x y)

def alu32 (rd : Nat) (op : BinOp) (x y : Value) : Build Unit := do
  if rd ≠ 0 then
    let x ← low x
    let y ← low y
    setReg rd (← c.widen (← binop op x y))

def aluRegs (w : Word) (op : BinOp) : Build Unit := do
  let x ← c.getReg w.rs
  let y ← c.getReg w.rt
  alu w.rd op x y

def aluRegs32 (w : Word) (op : BinOp) : Build Unit := do
  let x ← c.getReg w.rs
  let y ← c.getReg w.rt
  c.alu32 w.rd op x y

def aluImm (w : Word) (op : BinOp) (imm : UInt64) : Build Unit := do
  alu w.rt op (← c.getReg w.rs) (c.lit imm)

def aluImm32 (w : Word) (op : BinOp) (imm : UInt64) : Build Unit := do
  c.alu32 w.rt op (← c.getReg w.rs) (c.lit imm)

def shift32 (w : Word) (op : BinOp) (amount : Value) : Build Unit := do
  if w.rd ≠ 0 then
    let x ← low (← c.getReg w.rt)
    setReg w.rd (← c.widen (← binop op x amount))

def shift32Reg (w : Word) (op : BinOp) : Build Unit := do
  c.shift32 w op (← low (← c.getReg w.rs))

/-- The whole register is shifted and its low word kept. -/
def sra32 (w : Word) (amount : Value) : Build Unit := do
  if w.rd ≠ 0 then
    let x ← binop .sra (← c.getReg w.rt) amount
    setReg w.rd (← c.widen (← low x))

def shift64Reg (w : Word) (op : BinOp) : Build Unit := do
  let x ← c.getReg w.rt
  let y ← c.getReg w.rs
  alu w.rd op x y

def shift64 (w : Word) (op : BinOp) (amount : UInt64) : Build Unit := do
  alu w.rd op (← c.getReg w.rt) (c.lit amount)

def setIf (rd : Nat) (op : CmpOp) (x y : Value) : Build Unit := do
  if rd ≠ 0 then setReg rd (← zext c.width (← icmp op x y))

def setIfRegs (w : Word) (op : CmpOp) : Build Unit := do
  let x ← c.getReg w.rs
  let y ← c.getReg w.rt
  c.setIf w.rd op x y

def setIfImm (w : Word) (op : CmpOp) : Build Unit := do
  c.setIf w.rt op (← c.getReg w.rs) (c.lit w.simm)

def mult (w : Word) (ext : CvtOp) : Build Unit := do
  let x ← cvt ext Ty.i64 (← low (← c.getReg w.rs))
  let y ← cvt ext Ty.i64 (← low (← c.getReg w.rt))
  let p ← binop .mul x y
  write Register.lo (← c.widen (← trunc Ty.i32 p))
  let high ← binop .srl p (Value.lit Ty.i64 32)
  write Register.hi (← c.widen (← trunc Ty.i32 high))

/-- Quotient and remainder of two low words, in `lo` and `hi`. -/
def div32 (w : Word) (quotient remainder : BinOp) : Build Unit := do
  let x ← low (← c.getReg w.rs)
  let y ← low (← c.getReg w.rt)
  write Register.lo (← c.widen (← binop quotient x y))
  write Register.hi (← c.widen (← binop remainder x y))

def div64 (w : Word) (quotient remainder : BinOp) : Build Unit := do
  let x ← c.getReg w.rs
  let y ← c.getReg w.rt
  write Register.lo (← binop quotient x y)
  write Register.hi (← binop remainder x y)

def address (w : Word) : Build Value := do
  let base ← c.getReg w.rs
  let guest ← if w.imm ≠ 0 then binop .add base (c.lit w.simm) else pure base
  let wide ← zext Ty.i64 guest
  let masked ← if c.map.mask ≠ -1 then binop .and wide (Value.lit Ty.i64 c.map.mask) else pure wide
  if c.map.base ≠ 0 then binop .add masked (Value.lit Ty.i64 c.map.base) else pure masked

/-- A load is done also where its result goes to register zero. -/
def loadReg (w : Word) (t : Ty) (ext : CvtOp) : Build Unit := do
  let v ← load t (← c.address w)
  if w.rt ≠ 0 then setReg w.rt (← cvt ext c.width v)

def storeReg (w : Word) (t : Ty) : Build Unit := do
  let addr ← c.address w
  store addr (← trunc t (← c.getReg w.rt))

def test (w : Word) : Test → Build Value
  | .eq => do
      let x ← c.getReg w.rs
      let y ← c.getReg w.rt
      icmp .eq x y
  | .ne => do
      let x ← c.getReg w.rs
      let y ← c.getReg w.rt
      icmp .ne x y
  | .ltz => do icmp .slt (← c.getReg w.rs) (c.lit 0)
  | .gez => do icmp .sge (← c.getReg w.rs) (c.lit 0)
  | .lez => do icmp .sle (← c.getReg w.rs) (c.lit 0)
  | .gtz => do icmp .sgt (← c.getReg w.rs) (c.lit 0)

def lift (w : Word) : Mnemonic → Build Unit
  | .sll => c.shift32 w .sll (Value.lit Ty.i32 w.sa)
  | .srl => c.shift32 w .srl (Value.lit Ty.i32 w.sa)
  | .sra => c.sra32 w (c.lit w.sa)
  | .sllv => c.shift32Reg w .sll
  | .srlv => c.shift32Reg w .srl
  | .srav => do c.sra32 w (← binop .and (← c.getReg w.rs) (c.lit 31))
  | .mfhi => do setReg w.rd (← read Register.hi c.width)
  | .mthi => do write Register.hi (← c.getReg w.rs)
  | .mflo => do setReg w.rd (← read Register.lo c.width)
  | .mtlo => do write Register.lo (← c.getReg w.rs)
  | .dsllv => c.shift64Reg w .sll
  | .dsrlv => c.shift64Reg w .srl
  | .dsrav => c.shift64Reg w .sra
  | .mult => c.mult w .sext
  | .multu => c.mult w .zext
  | .div => c.div32 w .sdiv .srem
  | .divu => c.div32 w .udiv .urem
  | .ddiv => c.div64 w .sdiv .srem
  | .ddivu => c.div64 w .udiv .urem
  | .add | .addu => c.aluRegs32 w .add
  | .sub | .subu => c.aluRegs32 w .sub
  | .and => c.aluRegs w .and
  | .or => c.aluRegs w .or
  | .xor => c.aluRegs w .xor
  | .nor => do
      if w.rd ≠ 0 then
        let x ← c.getReg w.rs
        let y ← c.getReg w.rt
        setReg w.rd (← Builder.not (← binop .or x y))
  | .slt => c.setIfRegs w .slt
  | .sltu => c.setIfRegs w .ult
  | .dadd | .daddu => c.aluRegs w .add
  | .dsub | .dsubu => c.aluRegs w .sub
  | .dsll => c.shift64 w .sll w.sa
  | .dsrl => c.shift64 w .srl w.sa
  | .dsra => c.shift64 w .sra w.sa
  | .dsll32 => c.shift64 w .sll (w.sa + 32)
  | .dsrl32 => c.shift64 w .srl (w.sa + 32)
  | .dsra32 => c.shift64 w .sra (w.sa + 32)
  | .addi | .addiu => c.aluImm32 w .add w.simm
  | .slti => c.setIfImm w .slt
  | .sltiu => c.setIfImm w .ult
  | .andi => c.aluImm w .and w.imm
  | .ori => c.aluImm w .or w.imm
  | .xori => c.aluImm w .xor w.imm
  | .lui => setReg w.rt (c.lit w.upper)
  | .daddi | .daddiu => c.aluImm w .add w.simm
  | .lb => c.loadReg w Ty.i8 .sext
  | .lh => c.loadReg w Ty.i16 .sext
  | .lw => c.loadReg w Ty.i32 .sext
  | .lbu => c.loadReg w Ty.i8 .zext
  | .lhu => c.loadReg w Ty.i16 .zext
  | .lwu => c.loadReg w Ty.i32 .zext
  | .ld => c.loadReg w Ty.i64 .zext
  | .sb => c.storeReg w Ty.i8
  | .sh => c.storeReg w Ty.i16
  | .sw => c.storeReg w Ty.i32
  | .sd => c.storeReg w Ty.i64
  | .mfc0 => do
      if w.rt ≠ 0 then
        let v ← read (Register.system w.rd) c.width
        setReg w.rt (← c.widen (← low v))
  | .dmfc0 => do setReg w.rt (← read (Register.system w.rd) c.width)
  | _ => pure ()

end Setting

end Dynarec.Guest
