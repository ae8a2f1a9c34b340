import Dynarec.Graph.Run
import Dynarec.Host.Cells
import Dynarec.Host.Window

/-!
# The host a graph runs on

Cells for the registers, at most one memory window on the bus, and a log of the calls that were made.
-/

namespace Dynarec

structure Host where
  cells : Cells := default
  window : Option Window := none
  calls : Array (String × List UInt64) := #[]
deriving Inhabited

namespace Host

abbrev Impl := List UInt64 → Host → UInt64 × Host

/-- A bus without a window answers no access. -/
def world (impl : Func → Option Impl) : World Host where
  readCell h cell n := h.cells.read cell n
  writeCell h cell n x := { h with cells := h.cells.write cell n x }
  load h n addr :=
    match h.window with
    | none => (none, h)
    | some w =>
        let (x, w) := w.load n addr
        (x, { h with window := some w })
  store h n addr x :=
    match h.window with
    | none => (false, h)
    | some w =>
        let (ok, w) := w.store n addr x
        (ok, { h with window := some w })
  call := impl

/-- A call target that is logged when it is called. -/
def logged (name : String) (impl : Impl) : Impl := fun args h =>
  impl args { h with calls := h.calls.push (name, args) }

end Host

end Dynarec
