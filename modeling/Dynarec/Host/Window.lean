import Dynarec.Host.Allocation
import Dynarec.Host.Bytes
import Dynarec.Text.Hex

/-!
# Memory windows

A window is a run of bytes that the guest's bus serves at a base address. An access must lie inside
the window as a whole. Words are little-endian. While tracing is on, every access that succeeds is
recorded.
-/

namespace Dynarec

structure Access where
  isWrite : Bool
  offset : Nat
  size : Nat
  word : UInt64
deriving DecidableEq

namespace Access

/-- Direction and bits, the offset in brackets, the word. -/
def text (a : Access) : String :=
  (if a.isWrite then "store" else "load") ++ toString (8 * a.size) ++ " [" ++
    Text.hexPadded 4 a.offset ++ "] " ++ Text.hexWord a.word

end Access

structure Window where
  base : UInt64 := 0
  size : Nat
  /-- The bytes up to the last one that was ever set; those behind them are zero. -/
  front : Array UInt8 := #[]
  isTracing : Bool := false
  trace : Array Access := #[]
deriving Inhabited

namespace Window

def zeroed (size : Nat) : Window :=
  { size }

/-- The bytes that every window has behind it, which it does not serve. -/
def spare : Nat := 8

def fits (size : Int) : Bool :=
  0 ≤ size && Host.canAllocate (Host.signedWord (size + spare)) 1

def filled (size : Nat) (contents : List UInt8) : Window :=
  { size, front := (contents.take size).toArray }

/-- A window of a size that need not be sensible. -/
def create? (size : Int) (contents : List UInt8) : Option Window :=
  if fits size then some (filled size.toNat contents) else none

def reset (w : Window) (contents : List UInt8) : Window :=
  { w with front := (filled w.size contents).front, trace := #[] }

/-- Bytes with zeros behind them, at least `size` of them. -/
def padded (size : Nat) (front : Array UInt8) : Array UInt8 :=
  front ++ Array.replicate (size - front.size) 0

def contents (w : Window) : List UInt8 :=
  (padded w.size w.front).toList

def offset? (w : Window) (addr : UInt64) (n : Nat) : Option Nat :=
  let offset := (addr - w.base).toNat
  if offset + n ≤ w.size then some offset else none

def record (w : Window) (a : Access) : Window :=
  if w.isTracing then { w with trace := w.trace.push a } else w

def word (w : Window) (offset n : Nat) : UInt64 :=
  Bytes.toWordLE ((List.range' offset n).map fun i => (w.front[i]?).getD 0)

def setBytes (bytes : Array UInt8) (offset : Nat) : List UInt8 → Array UInt8
  | [] => bytes
  | x :: xs => setBytes (bytes.setIfInBounds offset x) (offset + 1) xs

def load (w : Window) (n : Nat) (addr : UInt64) : Option UInt64 × Window :=
  match w.offset? addr n with
  | none => (none, w)
  | some offset =>
      let x := w.word offset n
      (some x, w.record ⟨false, offset, n, x⟩)

def store (w : Window) (n : Nat) (addr x : UInt64) : Bool × Window :=
  match w.offset? addr n with
  | none => (false, w)
  | some offset =>
      let bytes := Bytes.ofWordLE n x
      let w := { w with front := setBytes (padded (offset + n) w.front) offset bytes }
      (true, w.record ⟨true, offset, n, Bytes.toWordLE bytes⟩)

/-- The maximal runs of bytes that differ, each with its offset; the state is the offset of the next
byte and the run that ends before it, last byte first. -/
def runs (offset : Nat) (open_ : List UInt8) : List (UInt8 × UInt8) → List (Nat × List UInt8)
  | [] => if open_.isEmpty then [] else [(offset - open_.length, open_.reverse)]
  | (old, new) :: rest =>
      if old != new then runs (offset + 1) (new :: open_) rest
      else if open_.isEmpty then runs (offset + 1) [] rest
      else (offset - open_.length, open_.reverse) :: runs (offset + 1) [] rest

/-- What differs from the earlier contents `old`; both are followed by zeros. -/
def changes (old new : Array UInt8) : List (Nat × List UInt8) :=
  runs 0 [] ((padded new.size old).toList.zip (padded old.size new).toList)

end Window

end Dynarec
