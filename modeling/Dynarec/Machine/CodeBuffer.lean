import Dynarec.Fault
import Dynarec.Host.Allocation
import Dynarec.Machine.Encode

/-!
# Code buffers

A buffer is a run of bytes of fixed size with a write position. The first piece that does not fit sets
an error and everything after it is dropped, so a sequence of instructions needs one check at its end;
the pieces before it stay. The position is whatever was last set; at a position outside the buffer there
is nothing to write to.
-/

namespace Dynarec.Machine

structure Overflow where
  count : Nat
  offset : Int
  capacity : Nat
deriving DecidableEq, Inhabited

namespace Overflow

def report (e : Overflow) : Report :=
  ⟨some .codeBufferOverflow, Fault.codeBufferOverflow.text ++ ": " ++ toString e.count ++
    " bytes at offset " ++ toString e.offset ++ ", capacity " ++ toString e.capacity⟩

end Overflow

structure CodeBuffer where
  capacity : Nat
  /-- The bytes from the start on as far as they were ever written; all behind them are zero. -/
  bytes : Array UInt8 := #[]
  offset : Int := 0
  error : Option Overflow := none
deriving Inhabited

namespace CodeBuffer

/-- A buffer of a size that need not be sensible: none if it cannot be allocated. -/
def create? (size : Int) (fill : UInt8) : Option CodeBuffer :=
  if Host.canAllocate size 1 then
    some { capacity := size.toNat, bytes := if fill = 0 then #[] else Array.replicate size.toNat fill }
  else none

def byteAt (b : CodeBuffer) (i : Nat) : UInt8 :=
  b.bytes.getD i 0

def extract (b : CodeBuffer) (start stop : Nat) : List UInt8 :=
  (List.range (stop - start)).map fun i => b.byteAt (start + i)

def slice? (b : CodeBuffer) (start stop : Int) : Option (List UInt8) :=
  if 0 ≤ start ∧ start ≤ stop ∧ stop ≤ b.capacity then some (b.extract start.toNat stop.toNat)
  else none

/-- Everything before the write position, which must lie in the buffer. -/
def written? (b : CodeBuffer) : Option (List UInt8) :=
  b.slice? 0 b.offset

def setBytes (bytes : Array UInt8) (at_ : Nat) : List UInt8 → Array UInt8
  | [] => bytes
  | x :: xs => setBytes (bytes.setIfInBounds at_ x) (at_ + 1) xs

def writeAt (b : CodeBuffer) (at_ : Nat) (bs : List UInt8) : CodeBuffer :=
  { b with bytes := setBytes (b.bytes ++ Array.replicate (at_ + bs.length - b.bytes.size) 0) at_ bs }

def free (b : CodeBuffer) : Int :=
  Host.signedWord (b.capacity - b.offset)

def ahead (b : CodeBuffer) (n : Nat) : Int :=
  Host.signedWord (b.offset + n)

/-- Whether the next `n` bytes would start outside the buffer and yet not end behind it. To write them
is an abort. -/
def isMisplaced (b : CodeBuffer) (n : Nat) : Bool :=
  b.error.isNone && b.ahead n ≤ b.capacity && (b.offset < 0 || b.capacity < b.offset)

def misplacement (b : CodeBuffer) : String :=
  "runtime error: slice bounds out of range [" ++ toString b.offset ++ ":" ++
    (if b.offset < 0 then "" else toString b.capacity) ++ "]"

def piece (b : CodeBuffer) (bs : List UInt8) : CodeBuffer :=
  if b.error.isSome ∨ b.isMisplaced bs.length then b
  else if b.capacity < b.ahead bs.length then
    { b with error := some ⟨bs.length, b.offset, b.capacity⟩ }
  else { b.writeAt b.offset.toNat bs with offset := b.offset + bs.length }

def emit (b : CodeBuffer) (i : Instr) : CodeBuffer :=
  i.pieces.foldl piece b

/-- Whether an instruction would be misplaced. A piece of it that was written leaves the position inside
the buffer, so the first decides. -/
def misplaces (b : CodeBuffer) (i : Instr) : Bool :=
  i.pieces.head?.any fun bs => b.isMisplaced bs.length

def rewind (b : CodeBuffer) (offset : Int) : CodeBuffer :=
  { b with offset, error := none }

/-- Where the displacement of a jump that was just written stands; -1 if it did not fit. -/
def displacement (b : CodeBuffer) : Int :=
  if b.error.isSome then -1 else b.offset - 4

/-- Points the displacement at `pos` to `target`; a position outside the buffer is ignored. -/
def patch (b : CodeBuffer) (pos target : Int) : CodeBuffer :=
  if pos < 0 ∨ (b.capacity : Int) < pos + 4 then b
  else
    let rel := Int32.ofInt (target - (pos + 4))
    b.writeAt pos.toNat (Encode.imm32 rel.toUInt32)

/-- Whether the end of a displacement at `pos` is no machine word. To patch it is an abort. -/
def cannotPatch (pos : Int) : Bool :=
  Host.signedWord (pos + 4) < pos

end CodeBuffer

end Dynarec.Machine
