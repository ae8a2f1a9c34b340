import Dynarec.Graph.Ty

/-!
# Scalar operations

The arithmetic, comparison and conversion operators and their values. Operands are cut to the width of
the type before an operation and the result after it, so every operator is a function of the low bits
alone. Division by zero is defined: the quotient has all bits set (one for a negative signed dividend)
and the remainder is the dividend.
-/

namespace Dynarec

inductive BinOp where
  | add | sub | mul | udiv | sdiv | urem | srem | sll | srl | sra | and | or | xor
deriving DecidableEq, Inhabited

namespace BinOp

def all : List BinOp :=
  [add, sub, mul, udiv, sdiv, urem, srem, sll, srl, sra, and, or, xor]

def name : BinOp → String
  | add => "add"
  | sub => "sub"
  | mul => "mul"
  | udiv => "udiv"
  | sdiv => "sdiv"
  | urem => "urem"
  | srem => "srem"
  | sll => "sll"
  | srl => "srl"
  | sra => "sra"
  | and => "and"
  | or => "or"
  | xor => "xor"

def ofName? (s : String) : Option BinOp :=
  all.find? (fun op => op.name == s)

def isShift : BinOp → Bool
  | sll | srl | sra => true
  | _ => false

def isDivision : BinOp → Bool
  | udiv | sdiv | urem | srem => true
  | _ => false

end BinOp

inductive CmpOp where
  | eq | ne | ugt | uge | ult | ule | sgt | sge | slt | sle
deriving DecidableEq, Inhabited

namespace CmpOp

def all : List CmpOp :=
  [eq, ne, ugt, uge, ult, ule, sgt, sge, slt, sle]

def name : CmpOp → String
  | eq => "eq"
  | ne => "ne"
  | ugt => "ugt"
  | uge => "uge"
  | ult => "ult"
  | ule => "ule"
  | sgt => "sgt"
  | sge => "sge"
  | slt => "slt"
  | sle => "sle"

def ofName? (s : String) : Option CmpOp :=
  all.find? (fun op => op.name == s)

def isSigned : CmpOp → Bool
  | sgt | sge | slt | sle => true
  | _ => false

end CmpOp

inductive CvtOp where
  | trunc | sext | zext
deriving DecidableEq, Inhabited

namespace CvtOp

def all : List CvtOp := [trunc, sext, zext]

def name : CvtOp → String
  | trunc => "trunc"
  | sext => "sext"
  | zext => "zext"

def ofName? (s : String) : Option CvtOp :=
  all.find? (fun op => op.name == s)

end CvtOp

namespace Eval

def ofBool (b : Bool) : UInt64 :=
  if b then 1 else 0

/-- The signed reading of the low bits of `x`; void and widths from 64 on read the whole word. -/
def signed (t : Ty) (x : UInt64) : Int64 :=
  if t.bits = 0 ∨ 64 ≤ t.bits then x.toInt64
  else
    let shift := (64 - t.bits).toUInt64
    (x <<< shift).toInt64 >>> shift.toInt64

/-- The bit pattern of the least signed number; zero where no bit of a word is the sign bit. -/
def minSigned (t : Ty) : UInt64 :=
  if t.bits = 0 ∨ 64 < t.bits then 0 else 1 <<< (t.bits - 1).toUInt64

def udiv (t : Ty) (x y : UInt64) : UInt64 :=
  if y = 0 then t.mask else x / y

def urem (x y : UInt64) : UInt64 :=
  if y = 0 then x else x % y

def sdiv (t : Ty) (x y : UInt64) : UInt64 :=
  let sx := signed t x
  let sy := signed t y
  if y = 0 then (if sx < 0 then 1 else t.mask)
  else if x = minSigned t ∧ sy = -1 then x
  else (sx / sy).toUInt64

def srem (t : Ty) (x y : UInt64) : UInt64 :=
  let sx := signed t x
  let sy := signed t y
  if y = 0 then x
  else if x = minSigned t ∧ sy = -1 then 0
  else (sx % sy).toUInt64

/-- What is left when a shift moves every bit out. -/
def shiftedOut (op : BinOp) (t : Ty) (x : UInt64) : UInt64 :=
  if op = .sra ∧ signed t x < 0 then t.mask else 0

/-- The count is taken modulo 32, or modulo 64 above 32 bits; a count that reaches the width moves
every bit out. -/
def shift (op : BinOp) (t : Ty) (x y : UInt64) : UInt64 :=
  let count := y &&& t.shiftMask
  if t.bits ≤ count.toNat then shiftedOut op t x
  else
    match op with
    | .sll => x <<< count
    | .srl => x >>> count
    | _ => (signed t x >>> count.toInt64).toUInt64

/-- The operation on operands that are cut already; the result is not cut. -/
def binopWide (op : BinOp) (t : Ty) (x y : UInt64) : UInt64 :=
  match op with
  | .add => x + y
  | .sub => x - y
  | .mul => x * y
  | .udiv => udiv t x y
  | .sdiv => sdiv t x y
  | .urem => urem x y
  | .srem => srem t x y
  | .sll => shift .sll t x y
  | .srl => shift .srl t x y
  | .sra => shift .sra t x y
  | .and => x &&& y
  | .or => x ||| y
  | .xor => x ^^^ y

def binop (op : BinOp) (t : Ty) (x y : UInt64) : UInt64 :=
  binopWide op t (x &&& t.mask) (y &&& t.mask) &&& t.mask

def cmp (op : CmpOp) (t : Ty) (x y : UInt64) : Bool :=
  let ux := x &&& t.mask
  let uy := y &&& t.mask
  let sx := signed t ux
  let sy := signed t uy
  match op with
  | .eq => ux == uy
  | .ne => ux != uy
  | .ugt => uy < ux
  | .uge => uy ≤ ux
  | .ult => ux < uy
  | .ule => ux ≤ uy
  | .sgt => sy < sx
  | .sge => sy ≤ sx
  | .slt => sx < sy
  | .sle => sx ≤ sy

def cvt (op : CvtOp) (source target : Ty) (x : UInt64) : UInt64 :=
  let cut := x &&& source.mask
  match op with
  | .sext => (signed source cut).toUInt64 &&& target.mask
  | .trunc | .zext => cut &&& target.mask

end Eval

end Dynarec
