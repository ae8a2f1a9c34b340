import Dynarec.Engine.Explain
import Dynarec.Guest.StateText
import Dynarec.Settings.File
import Dynarec.Shell.Flag

/-!
# Sessions

A session is an engine with a guest of its own, whose memory is a window of zero bytes. Options win over
the settings file.
-/

namespace Dynarec.Shell

/-- What reading the settings file gave: its text, or why there is none. -/
abbrev FileText := Except FileError String

namespace Options

def settings (o : Options) (file : FileText) : Except (Failure Report) Settings := do
  let s : Settings ←
    if o.config = "" then .ok {}
    else
      match file with
      | .error e => .error (.error (LoadError.unreadable o.config e).report)
      | .ok text => (Settings.parse text).mapError (Failure.map LoadError.report)
  let s := if o.width = 0 then s else { s with guest.width := o.width }
  let s := if o.log = "" then s else { s with log.level := o.log }
  let s := if o.debug = "" then s else { s with log.modules := o.debug }
  s.validate.mapError fun e => .error e.report
  return s

end Options

structure Session where
  engine : Engine
  host : Host

namespace Session

def state : Guest.State := ⟨0xc000000000⟩

def memoryBase : UInt64 := 0xc000100000

def reportAll (f : EngineFailure) : Failure Report :=
  f.map EngineError.report

/-- The cache has a page for every page of the window, and at least one. -/
def create (s : Settings) (memory : Int) : Except (Failure Report) Session := do
  if memory ≤ 0 ∨ memory.toNat &&& (memory.toNat - 1) ≠ 0 then
    throw (.error ⟨some .badCapacity, Fault.badCapacity.under ("memory size " ++ toString memory)⟩)
  if !Window.fits memory then throw (.abort none)
  let s := { s with
    guest.base := memoryBase
    guest.mask := (memory - 1).toNat.toUInt64
    cache.pageCount := max 1 (memory.tdiv s.cache.pageSize) }
  let engine ← (Engine.create s).mapError reportAll
  let engine ← (engine.bind state).mapError fun e => .error e.report
  return ⟨engine, { window := some { Window.zeroed memory.toNat with base := memoryBase } }⟩

def start (o : Options) (file : FileText) : Except (Failure Report) Session := do
  create (← o.settings file) o.memory

def width (s : Session) : Ty :=
  s.engine.width

def setAll (s : Session) (as : List (Nat × UInt64)) : Session :=
  { s with host.cells := state.setAll s.host.cells as }

/-- Runs a region, in native code if the host can call it. -/
def run (s : Session) (addr : UInt64) (code : List UInt8) (isNative : Bool) :
    Except (Failure Report) Unit × Session :=
  if isNative && Host.canCallNative then
    let (r, engine) := s.engine.execute addr code
    (r.mapError reportAll, { s with engine })
  else
    let (r, engine, host) := s.engine.interpret s.host addr code
    (r.mapError reportAll, ⟨engine, host⟩)

def registers (s : Session) : List (String × UInt64) :=
  (state.nonzero s.host.cells s.width).map fun (id, x) => (Guest.Register.name id, x)

end Session

end Dynarec.Shell
