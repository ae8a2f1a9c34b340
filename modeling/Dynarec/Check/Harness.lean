import Dynarec.Check.Difference
import Dynarec.Graph.Listing
import Dynarec.Graph.Simplify
import Dynarec.Graph.Typing
import Dynarec.Guest.Region
import Dynarec.Host.World

/-!
# Cross-checking

A harness lifts guest code and runs it twice from the same start: as it was lifted, and simplified. The
registers and the memory window must come out the same.
-/

namespace Dynarec

structure CheckOptions where
  width : Ty := Ty.i64
  /-- A power of two; guest addresses wrap inside the window. -/
  memorySize : Int := 4096
  maxInstructions : Int := 256
  isTracing : Bool := false

inductive HarnessError where
  | memorySize (n : Int)
  | space (e : WorkspaceError)
  | bind (e : Guest.BindError)
deriving DecidableEq

namespace HarnessError

def report : HarnessError → Report
  | memorySize n => ⟨some .badCapacity, Fault.badCapacity.under ("memory size " ++ toString n)⟩
  | space e => e.report
  | bind e => e.report

end HarnessError

inductive CheckError where
  | lift (e : Guest.LiftError)
  | rawRun (e : RunError)
  | typing (e : TypeError)
  | simplifiedRun (e : RunError)
deriving DecidableEq

namespace CheckError

def report : CheckError → Report
  | lift e => e.report
  | rawRun e => e.report.context "raw run"
  | typing e => e.report
  | simplifiedRun e => e.report.context "optimized run"

end CheckError

structure Snapshot where
  registers : List UInt64
  size : Nat
  /-- The bytes of the window; those behind them, up to its size, are zero. -/
  memory : List UInt8
deriving DecidableEq, Inhabited

namespace Snapshot

def contents (s : Snapshot) : List UInt8 :=
  (Window.padded s.size s.memory.toArray).toList

def agree : List UInt8 → List UInt8 → Bool
  | [], bs => bs.all (· == 0)
  | a :: as, [] => (a :: as).all (· == 0)
  | a :: as, b :: bs => a == b && agree as bs

def sameMemory (a b : Snapshot) : Bool :=
  max a.size a.memory.length == max b.size b.memory.length && agree a.memory b.memory

end Snapshot

/-- A run whose result differs from the run of the graph as it was lifted. -/
structure Mismatch where
  stage : String
  registers : String
  memory : String
deriving DecidableEq

namespace Mismatch

def text (m : Mismatch) : String :=
  m.stage ++ " run differs from the raw IR run" ++
    (if m.registers = "" then "" else "\nregisters:\n" ++ m.registers) ++
    (if m.memory = "" then "" else "\nmemory:\n" ++ m.memory)

end Mismatch

structure Trial where
  raw : String
  simplified : String := ""
  stages : List String := []
  final : Option Snapshot := none
  accesses : List Access := []

inductive CheckEnd where
  | agreed
  | differs (m : Mismatch)
  | failed (e : CheckError)
  | aborted

structure Harness where
  options : CheckOptions
  space : Workspace

namespace Harness

def state : Guest.State := ⟨0xc000000000⟩

def memoryBase : UInt64 := 0xc000100000

def exceptionFunc : Func := ⟨"exception", 0⟩

def create (o : CheckOptions) : Except (Failure HarnessError) Harness := do
  let n := o.memorySize
  if n ≤ 0 ∨ n.toNat &&& (n.toNat - 1) ≠ 0 then throw (.error (.memorySize n))
  if !Window.fits n then throw (.abort none)
  let space ← (Workspace.create Guest.Register.count 1024 8192 256).mapError (Failure.map .space)
  let space ← (state.bind space o.width).mapError fun e => .error (.bind e)
  return ⟨o, space⟩

def lifter (h : Harness) : Guest.Lifter where
  map := ⟨memoryBase, (h.options.memorySize - 1).toNat.toUInt64⟩
  maxInstructions := h.options.maxInstructions
  exception := some exceptionFunc

/-- Guest exceptions enter the handler of the guest. -/
def world : World Host :=
  Host.world fun _ => some fun args h =>
    (0, { h with cells := state.raise h.cells ((args[0]?).getD 0) ((args[1]?).getD 0) })

/-- The start of a run: registers in their cells, and contents for the memory window. -/
def host (h : Harness) (cells : Cells) (memory : List UInt8) (isTracing : Bool) : Host where
  cells
  window := some { Window.filled h.options.memorySize.toNat memory with base := memoryBase, isTracing }

def snapshot (h : Host) : Snapshot where
  registers := state.registers h.cells Ty.i64
  size := h.window.elim 0 Window.size
  memory := h.window.elim [] fun w => w.front.toList

/-- Registers are compared at the width of the guest. -/
def compare (h : Harness) (stage : String) (want got : Snapshot) : Option Mismatch :=
  let cut (s : Snapshot) := s.registers.map (· &&& h.options.width.mask)
  let m : Mismatch := {
    stage
    registers := Difference.registers (cut want) (cut got)
    memory :=
      if want.sameMemory got then ""
      else Difference.memory want.contents got.contents }
  if m.registers = "" ∧ m.memory = "" then none else some m

def checkSimplified (h : Harness) (cells : Cells) (memory : List UInt8) (t : Trial) (raw : Graph)
    (want : Snapshot) : Trial × CheckEnd :=
  let (g, done) := raw.sweep
  if !done then (t, .aborted)
  else
    let t := { t with simplified := g.listing h.space.registerName }
    match g.typecheck with
    | .rejected e => (t, .failed (.typing e))
    | .aborted => (t, .aborted)
    | .accepted =>
        match g.run world h.space (h.host cells memory false) with
        | (.aborted, _) => (t, .aborted)
        | (.failed e, _) => (t, .failed (.simplifiedRun e))
        | (.exited, after) =>
            let t := { t with stages := t.stages ++ ["optimized"] }
            match h.compare "optimized" want (snapshot after) with
            | some m => (t, .differs m)
            | none => (t, .agreed)

/-- Checks guest code from one start. There is no trial if the code cannot be lifted. -/
def check (h : Harness) (addr : UInt64) (code : List UInt8) (cells : Cells) (memory : List UInt8) :
    Option Trial × CheckEnd × Harness :=
  match h.lifter.lift h.space.reset addr code with
  | (.error e, space) => (none, .failed (.lift e), { h with space })
  | (.ok raw, space) =>
      let h := { h with space }
      let t : Trial := { raw := raw.listing space.registerName }
      match raw.run world space (h.host cells memory h.options.isTracing) with
      | (.aborted, _) => (some t, .aborted, h)
      | (.failed e, _) => (some t, .failed (.rawRun e), h)
      | (.exited, after) =>
          let want := snapshot after
          let t := { t with
            final := some want
            accesses := (after.window.map fun w => w.trace.toList).getD [] }
          let (t, fin) := h.checkSimplified cells memory t raw want
          (some t, fin, h)

end Harness

end Dynarec
