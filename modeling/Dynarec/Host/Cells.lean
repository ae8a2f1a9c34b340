import Std.Data.HashMap
import Dynarec.Host.Bytes

/-!
# Host memory

Bytes of host memory by address; a byte that was never written is zero. Words are little-endian.
-/

namespace Dynarec

structure Cells where
  bytes : Std.HashMap UInt64 UInt8

namespace Cells

instance : Inhabited Cells := ⟨⟨∅⟩⟩

def byte (c : Cells) (a : UInt64) : UInt8 :=
  c.bytes.getD a 0

def setByte (c : Cells) (a : UInt64) (x : UInt8) : Cells :=
  ⟨c.bytes.insert a x⟩

theorem byte_setByte (c : Cells) (a b : UInt64) (x : UInt8) :
    (c.setByte a x).byte b = if a = b then x else c.byte b := by
  simp only [byte, setByte, Std.HashMap.getD_insert, beq_iff_eq]

def range (c : Cells) (a : UInt64) : Nat → List UInt8
  | 0 => []
  | n + 1 => c.byte a :: c.range (a + 1) n

def setRange (c : Cells) (a : UInt64) : List UInt8 → Cells
  | [] => c
  | x :: xs => (c.setByte a x).setRange (a + 1) xs

def read (c : Cells) (a : UInt64) (n : Nat) : UInt64 :=
  Bytes.toWordLE (c.range a n)

def write (c : Cells) (a : UInt64) (n : Nat) (x : UInt64) : Cells :=
  c.setRange a (Bytes.ofWordLE n x)

end Cells

end Dynarec
