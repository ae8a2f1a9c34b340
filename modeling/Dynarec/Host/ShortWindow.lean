import Dynarec.Host.Window

/-!
# Windows of negative size

Every window has eight spare bytes behind it. Of a window whose size is negative only a part of them is
left, and its bound, taken as an unsigned word, keeps nothing out: an access aborts if it does not lie in
what is left.
-/

namespace Dynarec

structure ShortWindow where
  size : Int
  rest : Window

namespace ShortWindow

/-- Where a window stands on the host; addresses above wrap to below it. -/
def hostBase : UInt64 := 0xc000000000

def create? (size : Int) : Option ShortWindow :=
  if -(Window.spare : Int) ≤ size ∧ size < 0 then
    some ⟨size, Window.zeroed (size + Window.spare).toNat⟩
  else none

/-- Whether an offset wraps past the top of the address space, so that the window does not serve it. -/
def isBelow (w : ShortWindow) (offset : UInt64) : Bool :=
  w.rest.size != 0 && hostBase + offset < hostBase

/-- What is at an offset, if it is served; none at all if the access aborts. -/
def load? (w : ShortWindow) (n : Nat) (offset : UInt64) : Option (Option UInt64 × ShortWindow) :=
  if w.isBelow offset then some (none, w)
  else
    match w.rest.load n offset with
    | (some x, rest) => some (some x, { w with rest })
    | (none, _) => none

def store? (w : ShortWindow) (n : Nat) (offset x : UInt64) : Option (Bool × ShortWindow) :=
  if w.isBelow offset then some (false, w)
  else
    match w.rest.store n offset x with
    | (true, rest) => some (true, { w with rest })
    | (false, _) => none

end ShortWindow

end Dynarec
