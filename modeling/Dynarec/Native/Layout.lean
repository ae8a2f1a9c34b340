import Dynarec.Machine.CodeBuffer
import Dynarec.Native.Select

/-!
# Layout of blocks

Block 0 is placed first. The false side of a branch is placed behind it if it has no place yet and
jumped to otherwise; true sides wait in a queue. A branch on a constant goes on to the side it selects
without a jump. Blocks that are not reached this way are not placed. A run of blocks placed one behind
the other ends in a jump; code generation stops at the first instruction that has no native code.
-/

namespace Dynarec.Native

open Machine

inductive Target where
  | block (label : Nat)
  | epilogue
deriving DecidableEq

inductive Item where
  | plain (i : Machine.Instr)
  | jump (c : Option Cond) (target : Target)

namespace Item

def instr (rel : Int32) : Item → Machine.Instr
  | plain i => i
  | jump none _ => .jmp rel
  | jump (some c) _ => .jcc c rel

def length (it : Item) : Nat :=
  (it.instr 0).length

end Item

inductive AssembleError where
  | emptyGraph
  | home (e : HomeError)
  | noTerminator (label : Nat)
  | homeless (id : Int)
  | at (i : Dynarec.Instr) (cause : SelectCause)
  | overflow (e : Overflow)
deriving DecidableEq

namespace AssembleError

def report : AssembleError → Report
  | emptyGraph => ⟨some .typecheck, Fault.typecheck.under "empty graph"⟩
  | home e => e.report
  | noTerminator label =>
      ⟨some .typecheck, Fault.typecheck.under ("block " ++ toString label ++ " has no terminator")⟩
  | homeless id =>
      ⟨some .typecheck, Fault.typecheck.under ("variable %" ++ toString id ++ " has no location")⟩
  | .at i cause => ⟨some cause.fault, cause.fault.under (i.text ++ ": " ++ cause.text)⟩
  | overflow e => e.report

end AssembleError

/-- Code generation aborts on a graph that no checker would accept. -/
abbrev AssembleFailure := Failure AssembleError

def AssembleFailure.ofBadSize (e : BadSize) : AssembleFailure :=
  .abort (some e.text)

structure Placed where
  label : Nat
  items : List Item

inductive BlockEnd where
  /-- Control leaves by a jump. -/
  | closed
  /-- Control falls through to a block; another may have to be placed later. -/
  | falls (next : Nat) (later : Option Nat)
  | stopped (f : AssembleFailure)

namespace Layout

variable (w : Workspace) (g : Graph) (h : Homes)

/-- The code of an instruction inside a block, or why it has none. -/
def instrCode (k : Nat) (i : Dynarec.Instr) : Except AssembleFailure Code :=
  match Select.unsupported w i with
  | some cause => .error (.error (.at i cause))
  | none =>
      match Select.code h w k i with
      | .error e => .error (AssembleFailure.ofBadSize e)
      | .ok code =>
          match Select.homeless h i.op with
          | some id => .error (.error (.homeless id))
          | none => .ok code

/-- The first side of a branch that leaves the graph or goes backward. -/
def badTarget (label : Nat) (targets : List Int) : Option Int :=
  targets.find? fun t => t ≤ label || (g.blocks.size : Int) ≤ t

def branchCode (label : Nat) (i : Dynarec.Instr) (cond : Value) (ifFalse ifTrue : Int) :
    List Item × BlockEnd :=
  match badTarget g label [ifFalse, ifTrue] with
  | some t => ([], .stopped (.error (.at i (.branchTarget t))))
  | none =>
      match cond with
      | .const _ x => ([], .falls (if x &&& 1 = 0 then ifFalse.toNat else ifTrue.toNat) none)
      | .var _ id =>
          match Select.load h .rax cond with
          | .error e => ([], .stopped (AssembleFailure.ofBadSize e))
          | .ok code =>
              if h.get id = .none then ([], .stopped (.error (.homeless id)))
              else
                ((code ++ [Machine.Instr.test .dword (.reg .rax) .rax]).map Item.plain ++
                    [.jump (some .notEqual) (.block ifTrue.toNat)],
                  .falls ifFalse.toNat (some ifTrue.toNat))

/-- The code of the instructions of block `label` from number `k` on, up to its end. -/
def blockCode (label : Nat) : (k : Nat) → List Dynarec.Instr → List Item × BlockEnd
  | _, [] => ([], .stopped (.error (.noTerminator label)))
  | k, i :: rest =>
      match i.op with
      | .exit => ([.jump none .epilogue], .closed)
      | .br c f t => branchCode g h label i c f t
      | _ =>
          match instrCode w h k i with
          | .error f => ([], .stopped f)
          | .ok code =>
              let (items, fin) := blockCode label (k + 1) rest
              (code.map .plain ++ items, fin)

def firstIndex (label : Nat) : Nat :=
  ((g.blocks.toList.take label).map fun b => b.instrs.length).foldr (· + ·) 0

structure State where
  placed : Array Nat := #[]
  pending : List Nat := []

/-- Places a run of blocks that starts with block `label`: its blocks, and why it stopped if it did. -/
def run (s : State) (label : Nat) : List Placed × State × Option AssembleFailure :=
  if _inside : label < g.blocks.size then
    let s := { s with placed := s.placed.push label }
    let (items, fin) :=
      blockCode w g h label (firstIndex g label) ((g.blocks[label]?.map Block.instrs).getD [])
    match fin with
    | .closed => ([⟨label, items⟩], s, none)
    | .stopped f => ([⟨label, items⟩], s, some f)
    | .falls next later =>
        let s := match later with
          | some t => if s.placed.contains t then s else { s with pending := s.pending ++ [t] }
          | none => s
        if s.placed.contains next then
          ([⟨label, items ++ [.jump none (.block next)]⟩], s, none)
        else if _forward : label < next then
          let (rest, s, stop) := run s next
          (⟨label, items⟩ :: rest, s, stop)
        else ([⟨label, items⟩], s, none)
  else ([], s, none)
termination_by g.blocks.size - label

/-- Places runs until nothing waits. A block is queued only when a block is placed, so `steps` does not
run out when it starts at one more than the number of blocks. -/
def runs : (steps : Nat) → State → List (List Placed) × Option AssembleFailure
  | 0, _ => ([], none)
  | steps + 1, s =>
      match s.pending with
      | [] => ([], none)
      | label :: pending =>
          let s := { s with pending }
          if s.placed.contains label then runs steps s
          else
            let (placed, s, stop) := run w g h s label
            match stop with
            | some f => ([placed], some f)
            | none =>
                let (rest, stop) := runs steps s
                (placed :: rest, stop)

end Layout

/-- The runs of blocks of a graph in the order of their code, and why the last one stopped if it
did. -/
def layout (w : Workspace) (g : Graph) (h : Homes) : List (List Placed) × Option AssembleFailure :=
  Layout.runs w g h (g.blocks.size + 1) { pending := [0] }

end Dynarec.Native
