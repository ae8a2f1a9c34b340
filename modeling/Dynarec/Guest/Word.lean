import Dynarec.Host.Bytes

/-!
# Guest instruction words

The fields of a 32-bit MIPS instruction word, the three formats words are put together in, and byte
strings of words, most significant byte first.
-/

namespace Dynarec.Guest

structure Word where
  bits : UInt32
deriving DecidableEq, Inhabited

namespace Word

def opcode (w : Word) : Nat := (w.bits >>> 26).toNat
def rs (w : Word) : Nat := ((w.bits >>> 21) &&& 31).toNat
def rt (w : Word) : Nat := ((w.bits >>> 16) &&& 31).toNat
def rd (w : Word) : Nat := ((w.bits >>> 11) &&& 31).toNat
def funct (w : Word) : Nat := (w.bits &&& 63).toNat

def sa (w : Word) : UInt64 := ((w.bits >>> 6) &&& 31).toUInt64

def imm (w : Word) : UInt64 := (w.bits &&& 0xffff).toUInt64

def simm (w : Word) : UInt64 := w.bits.toUInt16.toInt16.toInt64.toUInt64

/-- The distance of a branch target from the delay slot. -/
def branchOffset (w : Word) : UInt64 := w.simm <<< 2

/-- The immediate in the upper half of a sign-extended 32-bit word. -/
def upper (w : Word) : UInt64 := (w.bits <<< 16).toInt32.toInt64.toUInt64

def target (w : Word) : UInt64 := (w.bits &&& 0x3ffffff).toUInt64 <<< 2

def ofR (op rs rt rd sa funct : UInt32) : Word :=
  ⟨op <<< 26 ||| (rs &&& 31) <<< 21 ||| (rt &&& 31) <<< 16 ||| (rd &&& 31) <<< 11 |||
    (sa &&& 31) <<< 6 ||| (funct &&& 63)⟩

def ofI (op rs rt : UInt32) (imm : UInt16) : Word :=
  ⟨op <<< 26 ||| (rs &&& 31) <<< 21 ||| (rt &&& 31) <<< 16 ||| imm.toUInt32⟩

def ofJ (op : UInt32) (target : UInt64) : Word :=
  ⟨op <<< 26 ||| ((target >>> 2).toUInt32 &&& 0x3ffffff)⟩

def toBytes (ws : List Word) : List UInt8 :=
  ws.flatMap fun w => Bytes.ofWordBE w.bits

def ofBytes (a b c d : UInt8) : Word :=
  ⟨a.toUInt32 <<< 24 ||| b.toUInt32 <<< 16 ||| c.toUInt32 <<< 8 ||| d.toUInt32⟩

end Word

end Dynarec.Guest
