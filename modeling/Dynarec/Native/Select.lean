import Dynarec.Graph.Workspace
import Dynarec.Machine.Encode
import Dynarec.Native.Homes

/-!
# Instruction selection

The machine instructions for each operation of a graph. Values are kept zero-extended in their homes;
`rax`, `rcx` and `rdx` hold them while an operation works. Jumps inside an operation go forward over
instructions that are known already, so their distances are lengths of code.
-/

namespace Dynarec.Native

open Machine

inductive SelectCause where
  | division (ty : Ty)
  | noEntry
  | unboundRead (register : String)
  | unboundWrite (register : String)
  | unexpected (kind : String)
  | branchTarget (target : Int)
deriving DecidableEq

namespace SelectCause

def fault : SelectCause → Fault
  | division _ => .unsupportedDivision
  | noEntry => .unsupportedCall
  | unboundRead _ | unboundWrite _ => .unboundRegister
  | unexpected _ | branchTarget _ => .typecheck

def text : SelectCause → String
  | division t => t.text ++ " division"
  | noEntry => "no native entry point"
  | unboundRead name => "read of " ++ name
  | unboundWrite name => "write of " ++ name
  | unexpected kind => "unexpected " ++ kind
  | branchTarget t => "bad branch target " ++ toString t

end SelectCause

abbrev Code := List Machine.Instr

def codeLength (c : Code) : Nat :=
  (c.map Machine.Instr.length).foldr (· + ·) 0

def displacement (n : Nat) : Int32 :=
  Int32.ofInt n

namespace Select

def jumpOver (n : Nat) : Machine.Instr := .jmp (displacement n)

def skipIf (c : Cond) (skipped : Code) : Code :=
  .jcc c (displacement (codeLength skipped)) :: skipped

variable (h : Homes)

/-- Moves a value into a register. A variable without a home moves nothing. -/
def load (dst : Reg) : Value → Except BadSize Code
  | .const _ x => .ok [.loadImm dst x]
  | .var _ id =>
      match h.get id with
      | .none => .ok []
      | .reg r => .ok (if r = dst then [] else [.movTo .qword (.reg dst) r])
      | .spill disp size => do return [← Machine.Instr.zeroExtend size dst (.mem (frameMem disp))]
      | .slot disp _ => .ok [.lea dst (frameMem disp)]

def store (i : Dynarec.Instr) (src : Reg) : Except BadSize Code :=
  match h.get i.res with
  | .reg r => .ok [.movTo .qword (.reg r) src]
  | .spill disp size => do return [.movTo (← Size.ofBytes size) (.mem (frameMem disp)) src]
  | .slot _ _ | .none => .ok []

/-- The memory at an address, and the code that computes it. -/
def address : Value → Except BadSize (Code × Mem)
  | .var t id =>
      match h.get id with
      | .slot disp _ => .ok ([], frameMem disp)
      | _ => do return (← load h .rax (.var t id), ⟨.rax, 0⟩)
  | v => do return (← load h .rax v, ⟨.rax, 0⟩)

/-- A constant that one move can store. -/
def immediate? (size : Nat) : Value → Option Int32
  | .const _ x =>
      if size = 8 ∧ !Machine.Instr.fitsImm32 x then none else some x.toUInt32.toInt32
  | .var _ _ => none

def mask (t : Ty) (r : Reg) : Code :=
  if t = Ty.i1 then [.aluImm .and .dword (.reg r) 1]
  else if t = Ty.i8 then [.movzx .byte r (.reg r)]
  else if t = Ty.i16 then [.movzx .word r (.reg r)]
  else if t = Ty.i32 then [.movTo .dword (.reg r) r]
  else []

/-- Widens a value to the whole register with its sign. -/
def widen (t : Ty) (r : Reg) : Code :=
  if t = Ty.i1 then [.unary .neg .qword (.reg r)]
  else if t = Ty.i8 then [.movsx .byte r (.reg r)]
  else if t = Ty.i16 then [.movsx .word r (.reg r)]
  else if t = Ty.i32 then [.movsxd r (.reg r)]
  else []

def assert (cond : Value) : Except BadSize Code := do
  return (← load h .rax cond) ++ [.test .dword (.reg .rax) .rax] ++ skipIf .notEqual [.ud2]

def not (i : Dynarec.Instr) (x : Value) : Except BadSize Code := do
  return (← load h .rax x) ++ [.unary .not .qword (.reg .rax)] ++ mask i.ty .rax ++
    (← store h i .rax)

def cvt (i : Dynarec.Instr) (op : CvtOp) (x : Value) : Except BadSize Code := do
  return (← load h .rax x) ++ (if op = .sext then widen x.ty .rax else []) ++ mask i.ty .rax ++
    (← store h i .rax)

def aluOp? : BinOp → Option AluOp
  | .add => some .add
  | .sub => some .sub
  | .and => some .and
  | .or => some .or
  | .xor => some .xor
  | _ => none

/-- The second operand of an operation on `rax`: as a constant if it fits, else through `rcx`. -/
def aluCode (op : AluOp) : Value → Except BadSize Code
  | .const t y =>
      if Machine.Instr.fitsImm32 y then .ok [.aluImm op .qword (.reg .rax) y.toUInt32.toInt32]
      else do return (← load h .rcx (.const t y)) ++ [.alu op .qword .rax (.reg .rcx)]
  | y => do return (← load h .rcx y) ++ [.alu op .qword .rax (.reg .rcx)]

/-- Whether the result of an operation on whole registers can have bits above its width. -/
def needsMask : BinOp → Bool
  | .add | .sub | .mul => true
  | _ => false

def arithmetic (i : Dynarec.Instr) (op : BinOp) (x y : Value) : Except BadSize Code := do
  let first ← load h .rax x
  let second ← match aluOp? op with
    | some alu => aluCode h alu y
    | none => do pure ((← load h .rcx y) ++ [.imul .qword .rax (.reg .rcx)])
  return first ++ second ++ (if needsMask op then mask i.ty .rax else []) ++ (← store h i .rax)

def shiftOp : BinOp → ShiftOp
  | .srl => .shr
  | .sra => .sar
  | _ => .shl

/-- Shifts narrower than a machine word work on the widened value, so a count that reaches the width
leaves zero or the sign. -/
def shift (i : Dynarec.Instr) (op : BinOp) (x y : Value) : Except BadSize Code := do
  let t := i.ty
  let narrow := t.bits < 32
  let size : Size := if t = Ty.i32 then .dword else .qword
  let first ← load h .rax x
  let sign := if narrow ∧ op = .sra then widen t .rax else []
  let body ← match y with
    | .const _ n => pure [.shiftImm (shiftOp op) size (.reg .rax) (n &&& t.shiftMask).toUInt8]
    | _ => do
        let count ← load h .rcx y
        let cut := if narrow then [.aluImm .and .dword (.reg .rcx) t.shiftMask.toUInt32.toInt32] else []
        pure (count ++ cut ++ [.shiftCl (shiftOp op) size (.reg .rax)])
  return first ++ sign ++ body ++ (if narrow then mask t .rax else []) ++ (← store h i .rax)

def isRemainder : BinOp → Bool
  | .urem | .srem => true
  | _ => false

def isSignedDivision : BinOp → Bool
  | .sdiv | .srem => true
  | _ => false

def divideCode (op : BinOp) (size : Size) : Code :=
  (if isSignedDivision op then
      [if size = .qword then .cqo else .cdq, .unary .idiv size (.reg .rcx)]
    else [.alu .xor .dword .rdx (.reg .rdx), .unary .div size (.reg .rcx)]) ++
  (if isRemainder op then [.movTo size (.reg .rax) .rdx] else [])

/-- The division by a divisor that is not zero. A signed division by -1 does not use the hardware
division, which traps when the quotient does not fit. -/
def nonzeroCode (op : BinOp) (size : Size) : Code :=
  let divide := divideCode op size
  if isSignedDivision op then
    let minusOne : Code :=
      [if isRemainder op then .alu .xor .dword .rax (.reg .rax) else .unary .neg size (.reg .rax),
        jumpOver (codeLength divide)]
    .aluImm .cmp size (.reg .rcx) (-1) :: skipIf .notEqual minusOne ++ divide
  else divide

/-- The division by zero, which skips the rest; a remainder is the dividend, in `rax` already. -/
def zeroCode (op : BinOp) (t : Ty) (size : Size) (rest : Nat) : Code :=
  match op with
  | .udiv => [.loadImm .rax t.mask, jumpOver rest]
  | .sdiv =>
      let negative : Code := [.loadImm .rax 1, jumpOver rest]
      [.test size (.reg .rax) .rax, .loadImm .rax t.mask,
        .jcc .notNegative (displacement (codeLength negative + rest))] ++ negative
  | _ => [jumpOver rest]

def division (i : Dynarec.Instr) (op : BinOp) (size : Size) (x y : Value) : Except BadSize Code := do
  let nonzero := nonzeroCode op size
  let zero := zeroCode op i.ty size (codeLength nonzero)
  return (← load h .rax x) ++ (← load h .rcx y) ++ [.test size (.reg .rcx) .rcx] ++
    skipIf .notEqual zero ++ nonzero ++ mask i.ty .rax ++ (← store h i .rax)

def cond : CmpOp → Cond
  | .eq => .equal
  | .ne => .notEqual
  | .ugt => .above
  | .uge => .aboveEqual
  | .ult => .below
  | .ule => .belowEqual
  | .sgt => .greater
  | .sge => .greaterEqual
  | .slt => .less
  | .sle => .lessEqual

def compare (i : Dynarec.Instr) (op : CmpOp) (x y : Value) : Except BadSize Code := do
  let sign := if op.isSigned then widen x.ty .rax ++ widen x.ty .rcx else []
  return (← load h .rax x) ++ (← load h .rcx y) ++ sign ++
    [.alu .cmp .qword .rax (.reg .rcx), .setcc (cond op) (.reg .rax), .movzx .byte .rax (.reg .rax)] ++
    (← store h i .rax)

def loadMem (i : Dynarec.Instr) (addr : Value) : Except BadSize Code := do
  let (code, m) ← address h addr
  let get ← Machine.Instr.zeroExtend i.ty.bytes .rcx (.mem m)
  return code ++ [get] ++ (if i.ty = Ty.i1 then mask i.ty .rcx else []) ++ (← store h i .rcx)

def storeMem (addr x : Value) : Except BadSize Code := do
  let size := x.ty.bytes
  match immediate? size x with
  | some imm => do
      let (code, m) ← address h addr
      return code ++ [.movImm (← Size.ofBytes size) (.mem m) imm]
  | none => do
      let first ← load h .rcx x
      let (code, m) ← address h addr
      return first ++ code ++ [.movTo (← Size.ofBytes size) (.mem m) .rcx]

def readCell (i : Dynarec.Instr) (b : Binding) : Except BadSize Code := do
  let get ← Machine.Instr.zeroExtend b.ty.bytes .rax (.mem ⟨.rcx, 0⟩)
  return [.loadImm .rcx b.cell, get] ++ mask i.ty .rax ++ (← store h i .rax)

def writeCell (b : Binding) (x : Value) : Except BadSize Code := do
  let size ← Size.ofBytes b.ty.bytes
  match immediate? b.ty.bytes x with
  | some imm => return [.loadImm .rcx b.cell, .movImm size (.mem ⟨.rcx, 0⟩) imm]
  | none => return (← load h .rax x) ++ [.loadImm .rcx b.cell, .movTo size (.mem ⟨.rcx, 0⟩) .rax]

def pushAll : List Value → Except BadSize Code
  | [] => .ok []
  | v :: vs => do return (← load h .rax v) ++ [.push .rax] ++ (← pushAll vs)

/-- A call. Live registers are saved around it, arguments past the sixth go on the stack, which is
aligned to sixteen bytes at the call. The others pass through the stack too, so none is overwritten
while it is still needed. -/
def call (i : Dynarec.Instr) (k : Nat) (entry : UInt64) (params : List Value) :
    Except BadSize Code := do
  let saved := h.liveAcross k
  let inRegs := params.take Reg.arguments.length
  let onStack := params.drop Reg.arguments.length
  let pad := if (saved.length + onStack.length) % 2 ≠ 0 then 8 else 0
  let drop := 8 * onStack.length + pad
  let stackArgs ← pushAll h onStack.reverse
  let regArgs ← pushAll h inRegs
  let result ← if i.hasResult then do pure (mask i.ty .rax ++ (← store h i .rax)) else pure []
  return saved.map .push ++
    (if pad ≠ 0 then [.aluImm .sub .qword (.reg .rsp) 8] else []) ++
    stackArgs ++ regArgs ++ ((Reg.arguments.take inRegs.length).reverse.map .pop) ++
    [.loadImm .rax entry, .call .rax] ++
    (if drop ≠ 0 then [.aluImm .add .qword (.reg .rsp) (displacement drop)] else []) ++
    saved.reverse.map .pop ++ result

def loads : Op → List Value
  | .store a x => [x, a]
  | .call _ params => (params.drop Reg.arguments.length).reverse ++ params.take Reg.arguments.length
  | op => op.operands

/-- The last value an operation loads that is a variable without a home. -/
def homeless (op : Op) : Option Int :=
  ((loads op).filterMap fun v =>
    match v with
    | .var _ id => if h.get id = .none then some id else none
    | .const _ _ => none).getLast?

/-- Why an operation cannot be done natively, if it cannot. -/
def unsupported (w : Workspace) (i : Dynarec.Instr) : Option SelectCause :=
  match i.op with
  | .binop op _ _ =>
      if op.isDivision ∧ i.ty ≠ Ty.i32 ∧ i.ty ≠ Ty.i64 then some (.division i.ty) else none
  | .read reg => if (w.binding reg).isBound then none else some (.unboundRead (w.registerName reg))
  | .write reg _ => if (w.binding reg).isBound then none else some (.unboundWrite (w.registerName reg))
  | .call target _ =>
      match target with
      | some fn => if fn.entry = 0 then some .noEntry else none
      | none => some .noEntry
  | .unknown _ => some (.unexpected i.op.kindName)
  | _ => none

/-- The code of instruction `k`, which is not the end of a block. -/
def code (w : Workspace) (k : Nat) (i : Dynarec.Instr) : Except BadSize Code :=
  match i.op with
  | .assert c => assert h c
  | .not x => not h i x
  | .binop op x y =>
      if op.isDivision then division h i op (if i.ty = Ty.i32 then .dword else .qword) x y
      else if op.isShift then shift h i op x y
      else arithmetic h i op x y
  | .icmp op x y => compare h i op x y
  | .cvt op x => cvt h i op x
  | .load a => loadMem h i a
  | .store a x => storeMem h a x
  | .read reg => readCell h i (w.binding reg)
  | .write reg x => writeCell h (w.binding reg) x
  | .call target params => call h i k (match target with | some fn => fn.entry | none => 0) params
  | .alloc _ | .exit | .br _ _ _ | .unknown _ => .ok []

end Select

end Dynarec.Native
