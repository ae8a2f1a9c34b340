import Dynarec.Text.Hex

/-!
# Bit widths and values

A type is the bit width of a scalar; width zero is void. Only void, 1, 8, 16, 32 and 64 bits are in
use, but every width is representable, because a graph is checked after it is written down. A value is
a literal bit pattern or a reference to a variable.
-/

namespace Dynarec

structure Ty where
  bits : Nat
deriving DecidableEq, Inhabited

namespace Ty

def void : Ty := ⟨0⟩
def i1 : Ty := ⟨1⟩
def i8 : Ty := ⟨8⟩
def i16 : Ty := ⟨16⟩
def i32 : Ty := ⟨32⟩
def i64 : Ty := ⟨64⟩

def isValid (t : Ty) : Bool :=
  t = void || t = i1 || t = i8 || t = i16 || t = i32 || t = i64

/-- The least power of two that is at least eight and at least the width. -/
def rounded (t : Ty) : Nat :=
  if t.bits ≤ 8 then 8 else 1 <<< (Nat.log2 (t.bits - 1) + 1)

def bytes (t : Ty) : Nat :=
  t.rounded / 8

/-- Bytes moved by one access: the storage size, at most a machine word. -/
def accessBytes (t : Ty) : Nat :=
  min t.bytes 8

/-- The significant bits, all of them from 64 bits on. -/
def mask (t : Ty) : UInt64 :=
  if 64 ≤ t.bits then -1 else (1 <<< t.bits.toUInt64) - 1

/-- The bits of a shift count that matter. -/
def shiftMask (t : Ty) : UInt64 :=
  if 32 < t.bits then 63 else 31

def text (t : Ty) : String :=
  if t = void then "void" else "i" ++ toString t.bits

end Ty

inductive Value where
  | const (ty : Ty) (word : UInt64)
  | var (ty : Ty) (id : Int)
deriving DecidableEq

namespace Value

/-- The void constant zero: what an absent operand is, and what a failed step returns. -/
def none : Value := const Ty.void 0

instance : Inhabited Value := ⟨none⟩

def lit (t : Ty) (x : UInt64) : Value :=
  const t (x &&& t.mask)

def ty : Value → Ty
  | const t _ => t
  | var t _ => t

def isConst : Value → Bool
  | const _ _ => true
  | var _ _ => false

def isVar (v : Value) : Bool :=
  !v.isConst

def isZero : Value → Bool
  | const _ x => x == 0
  | var _ _ => false

/-- A variable is `%n`; a constant is decimal below ten and hexadecimal from there on. -/
def text : Value → String
  | var _ id => "%" ++ toString id
  | const _ x => if x < 10 then toString x.toNat else Text.hexWord x

def typedText (v : Value) : String :=
  v.ty.text ++ " " ++ v.text

end Value

end Dynarec
