import Dynarec.Machine.Reg
import Dynarec.Text.Hex

/-!
# Machine instructions

The instructions that native code is made of, one constructor for each form of encoding. Moves of a
constant have three forms; `loadImm` picks the shortest. Requests that take a size in bytes fail on a
size that no operand has.
-/

namespace Dynarec.Machine

structure Mem where
  base : Reg
  disp : Int32 := 0
deriving DecidableEq, Inhabited

namespace Mem

def text (m : Mem) : String :=
  let d := m.disp.toInt
  if d < 0 then "[" ++ m.base.name ++ "-" ++ Text.hex d.natAbs ++ "]"
  else if 0 < d then "[" ++ m.base.name ++ "+" ++ Text.hex d.natAbs ++ "]"
  else "[" ++ m.base.name ++ "]"

end Mem

inductive Operand where
  | reg (r : Reg)
  | mem (m : Mem)
deriving DecidableEq, Inhabited

namespace Operand

def base : Operand → Reg
  | reg r => r
  | mem m => m.base

def text : Operand → String
  | reg r => r.name
  | mem m => m.text

end Operand

inductive AluOp where
  | add | or | and | sub | xor | cmp
deriving DecidableEq, Inhabited

namespace AluOp

def all : List AluOp := [add, or, and, sub, xor, cmp]

def name : AluOp → String
  | add => "add"
  | or => "or"
  | and => "and"
  | sub => "sub"
  | xor => "xor"
  | cmp => "cmp"

def digit : AluOp → UInt8
  | add => 0
  | or => 1
  | and => 4
  | sub => 5
  | xor => 6
  | cmp => 7

end AluOp

inductive UnaryOp where
  | not | neg | div | idiv
deriving DecidableEq, Inhabited

namespace UnaryOp

def all : List UnaryOp := [not, neg, div, idiv]

def name : UnaryOp → String
  | not => "not"
  | neg => "neg"
  | div => "div"
  | idiv => "idiv"

def digit : UnaryOp → UInt8
  | not => 2
  | neg => 3
  | div => 6
  | idiv => 7

end UnaryOp

inductive ShiftOp where
  | shl | shr | sar
deriving DecidableEq, Inhabited

namespace ShiftOp

def all : List ShiftOp := [shl, shr, sar]

def name : ShiftOp → String
  | shl => "shl"
  | shr => "shr"
  | sar => "sar"

def digit : ShiftOp → UInt8
  | shl => 4
  | shr => 5
  | sar => 7

end ShiftOp

/-- A condition code; its low four bits say which condition. -/
structure Cond where
  code : UInt8
deriving DecidableEq, Inhabited

namespace Cond

def below : Cond := ⟨2⟩
def aboveEqual : Cond := ⟨3⟩
def equal : Cond := ⟨4⟩
def notEqual : Cond := ⟨5⟩
def belowEqual : Cond := ⟨6⟩
def above : Cond := ⟨7⟩
def notNegative : Cond := ⟨9⟩
def less : Cond := ⟨12⟩
def greaterEqual : Cond := ⟨13⟩
def lessEqual : Cond := ⟨14⟩
def greater : Cond := ⟨15⟩

def names : List String :=
  ["o", "no", "b", "ae", "e", "ne", "be", "a", "s", "ns", "p", "np", "l", "ge", "le", "g"]

def name (c : Cond) : String :=
  (names[(c.code &&& 15).toNat]?).getD ""

end Cond

inductive Narrow where
  | byte | word
deriving DecidableEq, Inhabited

def Narrow.size : Narrow → Size
  | byte => .byte
  | word => .word

inductive Instr where
  /-- A register into a register or memory. -/
  | movTo (size : Size) (dst : Operand) (src : Reg)
  /-- A register or memory into a register. -/
  | movFrom (size : Size) (dst : Reg) (src : Operand)
  /-- A constant into the low half; the upper half becomes zero. -/
  | movImm32 (dst : Reg) (x : UInt32)
  | movImm64 (dst : Reg) (x : UInt64)
  /-- A sign-extended constant into a register or memory. -/
  | movImm (size : Size) (dst : Operand) (x : Int32)
  | movzx (size : Narrow) (dst : Reg) (src : Operand)
  | movsx (size : Narrow) (dst : Reg) (src : Operand)
  | movsxd (dst : Reg) (src : Operand)
  | alu (op : AluOp) (size : Size) (dst : Reg) (src : Operand)
  | aluImm (op : AluOp) (size : Size) (dst : Operand) (x : Int32)
  | test (size : Size) (rm : Operand) (reg : Reg)
  | imul (size : Size) (dst : Reg) (src : Operand)
  | unary (op : UnaryOp) (size : Size) (rm : Operand)
  | shiftCl (op : ShiftOp) (size : Size) (rm : Operand)
  | shiftImm (op : ShiftOp) (size : Size) (rm : Operand) (n : UInt8)
  | setcc (c : Cond) (rm : Operand)
  | cdq
  | cqo
  | lea (dst : Reg) (src : Mem)
  | push (r : Reg)
  | pop (r : Reg)
  | call (r : Reg)
  | ret
  | ud2
  | nop
  | jmp (rel : Int32)
  | jcc (c : Cond) (rel : Int32)
deriving DecidableEq, Inhabited

structure BadSize where
  size : Int
deriving DecidableEq

def BadSize.text (e : BadSize) : String :=
  "x86: bad operand size " ++ toString e.size

def Size.ofBytes (n : Int) : Except BadSize Size :=
  match Size.ofBytes? n with
  | some s => .ok s
  | none => .error ⟨n⟩

namespace Instr

/-- Whether a word is the sign extension of its low half. -/
def fitsImm32 (x : UInt64) : Bool :=
  x == x.toUInt32.toInt32.toInt64.toUInt64

def loadImm (dst : Reg) (x : UInt64) : Instr :=
  if x ≤ 0xffffffff then movImm32 dst x.toUInt32
  else if fitsImm32 x then movImm .qword (.reg dst) x.toUInt32.toInt32
  else movImm64 dst x

def zeroExtend (bytes : Int) (dst : Reg) (src : Operand) : Except BadSize Instr :=
  if bytes = 1 then .ok (movzx .byte dst src)
  else if bytes = 2 then .ok (movzx .word dst src)
  else return movFrom (← Size.ofBytes bytes) dst src

/-- Sign-extends an operand of some bytes into a whole register; any other count is a plain move of a
whole register. -/
def signExtend (bytes : Int) (dst : Reg) (src : Operand) : Instr :=
  if bytes = 1 then movsx .byte dst src
  else if bytes = 2 then movsx .word dst src
  else if bytes = 4 then movsxd dst src
  else movFrom .qword dst src

/-- The multiplication that a count of bytes asks for: there is none of single bytes. -/
def multiply (bytes : Int) (dst : Reg) (src : Operand) : Instr :=
  if bytes = 2 then imul .word dst src
  else if bytes = 8 then imul .qword dst src
  else imul .dword dst src

end Instr

end Dynarec.Machine
