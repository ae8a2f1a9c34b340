import Dynarec.Graph.Workspace

/-!
# Building graphs

A builder appends instructions to the current block of a graph and takes the room for them from a
workspace. The first failure stays: later steps change nothing and return placeholders, and the graph
is not handed out.
-/

namespace Dynarec

inductive BuildError where
  | blocksFull (capacity : Nat)
  | instrsFull (capacity : Nat)
  | paramsFull (capacity : Nat)
  | noSuchBlock (label : Int) (count : Nat)
  | terminated (label : Int)
  | readType (register : String) (asked bound : Ty)
  | writeType (register : String) (given bound : Ty)
  | other (report : Report)
deriving DecidableEq

namespace BuildError

def report : BuildError → Report
  | blocksFull n => ⟨some .capacityExceeded, Fault.capacityExceeded.under (toString n ++ " blocks")⟩
  | instrsFull n =>
      ⟨some .capacityExceeded, Fault.capacityExceeded.under (toString n ++ " instructions")⟩
  | paramsFull n =>
      ⟨some .capacityExceeded, Fault.capacityExceeded.under (toString n ++ " call parameters")⟩
  | noSuchBlock label count =>
      ⟨some .typecheck,
        Fault.typecheck.under ("set block " ++ toString label ++ " of " ++ toString count)⟩
  | terminated label =>
      ⟨some .blockTerminated, Fault.blockTerminated.under ("block " ++ toString label)⟩
  | readType reg asked bound =>
      ⟨some .typecheck, Fault.typecheck.under
        ("read " ++ reg ++ " as " ++ asked.text ++ " from " ++ bound.text ++ " register")⟩
  | writeType reg given bound =>
      ⟨some .typecheck, Fault.typecheck.under
        ("write " ++ reg ++ " of " ++ given.text ++ " to " ++ bound.text ++ " register")⟩
  | other r => r

end BuildError

structure Builder where
  space : Workspace
  graph : Graph := Graph.empty
  current : Option Nat := none
  error : Option BuildError := none
deriving Inhabited

abbrev Build := StateM Builder

namespace Builder

/-- Keeps the first failure. -/
def fail (e : BuildError) : Build Unit :=
  modify fun b => if b.error.isSome then b else { b with error := some e }

def block (b : Builder) : Int :=
  match b.current with
  | some k => k
  | none => -1

/-- Whether nothing more can be appended to the current block. -/
def isTerminated (b : Builder) : Bool :=
  match b.current with
  | none => true
  | some k =>
      match (b.graph.blocks[k]?).bind Block.tail? with
      | some i => i.isTerminator
      | none => false

def finish (b : Builder) : Except BuildError Graph :=
  match b.error with
  | some e => .error e
  | none => .ok b.graph

def newBlock : Build Int := fun b =>
  if b.error.isSome then (-1, b)
  else if b.space.capacity.blocks ≤ b.space.used.blocks then
    (-1, { b with error := some (.blocksFull b.space.capacity.blocks) })
  else
    let label := b.graph.blocks.size
    let space :=
      { b.space with used := { b.space.used with blocks := b.space.used.blocks + 1 } }
    let graph := { b.graph with blocks := b.graph.blocks.push ⟨label, []⟩ }
    (label, { b with space, graph })

def setBlock (label : Int) : Build Unit := fun b =>
  if b.error.isSome then ((), b)
  else if label < 0 ∨ (b.graph.blocks.size : Int) ≤ label then
    ((), { b with error := some (.noSuchBlock label b.graph.blocks.size) })
  else ((), { b with current := some label.toNat })

def start (space : Workspace) : Builder :=
  let (label, b) := newBlock { space }
  if label < 0 then b else (setBlock label b).2

def push (b : Builder) (k : Nat) (i : Instr) : Builder :=
  let blocks := b.graph.blocks.modify k fun blk => { blk with instrs := blk.instrs ++ [i] }
  let varCount := if i.hasResult then b.graph.varCount + 1 else b.graph.varCount
  let space := { b.space with used := { b.space.used with instrs := b.space.used.instrs + 1 } }
  { b with graph := { blocks, varCount }, space }

/-- Appends an operation to the current block and numbers its result. The value is that result, or
the placeholder if the step failed. -/
def emit (op : Op) (t : Ty) : Build Value := fun b =>
  if b.error.isSome then (Value.none, b)
  else
    match b.current with
    | none => (Value.none, { b with error := some (.terminated b.block) })
    | some k =>
        if b.isTerminated then (Value.none, { b with error := some (.terminated b.block) })
        else if b.space.capacity.instrs ≤ b.space.used.instrs then
          (Value.none, { b with error := some (.instrsFull b.space.capacity.instrs) })
        else
          let bare : Instr := ⟨op, t, 0⟩
          let i := if bare.hasResult then { bare with res := b.graph.varCount } else bare
          (i.result, b.push k i)

def emit_ (op : Op) : Build Unit := do
  let _ ← emit op Ty.void

def binop (op : BinOp) (x y : Value) : Build Value :=
  emit (.binop op x y) x.ty

def icmp (op : CmpOp) (x y : Value) : Build Value :=
  emit (.icmp op x y) Ty.i1

def not (x : Value) : Build Value :=
  emit (.not x) x.ty

/-- A value that has the wanted type already is returned as it is. -/
def cvt (op : CvtOp) (t : Ty) (x : Value) : Build Value :=
  if x.ty = t then pure x else emit (.cvt op x) t

def trunc (t : Ty) (x : Value) : Build Value := cvt .trunc t x
def sext (t : Ty) (x : Value) : Build Value := cvt .sext t x
def zext (t : Ty) (x : Value) : Build Value := cvt .zext t x

def load (t : Ty) (addr : Value) : Build Value :=
  emit (.load addr) t

def store (addr x : Value) : Build Unit :=
  emit_ (.store addr x)

/-- An unbound register reads as zero and nothing is appended. -/
def read (reg : Int) (t : Ty) : Build Value := fun b =>
  let bound := b.space.binding reg
  if !bound.isBound then (Value.lit t 0, b)
  else if bound.ty ≠ t then
    (Value.none, (fail (.readType (b.space.registerName reg) t bound.ty) b).2)
  else emit (.read reg) t b

/-- A write to an unbound register is dropped. -/
def write (reg : Int) (x : Value) : Build Unit := fun b =>
  let bound := b.space.binding reg
  if !bound.isBound then ((), b)
  else if x.ty ≠ bound.ty then fail (.writeType (b.space.registerName reg) x.ty bound.ty) b
  else emit_ (.write reg x) b

def alloc (t : Ty) : Build Value :=
  emit (.alloc t) Ty.i64

/-- The room for the parameters is taken first and is not given back if the instruction fails. -/
def call (target : Option Func) (t : Ty) (params : List Value) : Build Value := fun b =>
  if b.error.isSome then (Value.none, b)
  else if b.space.capacity.params < b.space.used.params + params.length then
    (Value.none, { b with error := some (.paramsFull b.space.capacity.params) })
  else
    let used := { b.space.used with params := b.space.used.params + params.length }
    let (v, b) := emit (.call target params) t { b with space := { b.space with used } }
    (if t = Ty.void then Value.none else v, b)

def assert (cond : Value) : Build Unit :=
  emit_ (.assert cond)

def br (cond : Value) (ifFalse ifTrue : Int) : Build Unit :=
  emit_ (.br cond ifFalse ifTrue)

def exit : Build Unit :=
  emit_ .exit

end Builder

end Dynarec
