import Dynarec.Native.Layout

/-!
# Assembly

A graph becomes a function without arguments in the System V convention: it saves the registers it may
use, reserves its frame, runs its blocks, and restores everything in a common epilogue. All distances
are known before the first byte is written, and the code does not depend on where it stands. Assembly
fails as a whole: the code that the buffer had stays as it was.
-/

namespace Dynarec.Native

open Machine

structure Assembled where
  offset : Nat
  length : Nat
  frame : Nat
  spilled : Nat
deriving DecidableEq, Inhabited

/-- The bytes reserved below the saved registers; they keep the stack aligned at calls. -/
def Homes.frameSize (h : Homes) : Nat :=
  (h.frame + 15) / 16 * 16 + 8

def prologue (frame : Nat) : Code :=
  [.push .rbp, .movTo .qword (.reg .rbp) .rsp] ++ Reg.saved.map .push ++
    [.aluImm .sub .qword (.reg .rsp) (displacement frame)]

def epilogue : Code :=
  [.lea .rsp (frameMem (-(savedSize : Int)))] ++ Reg.saved.reverse.map .pop ++ [.pop .rbp, .ret]

def itemsLength (items : List Item) : Nat :=
  (items.map Item.length).foldr (· + ·) 0

/-- Where each block starts when the first stands at `pos`, and where the code ends. -/
def places (pos : Nat) : List Placed → List (Nat × Nat) × Nat
  | [] => ([], pos)
  | p :: rest =>
      let (starts, fin) := places (pos + itemsLength p.items) rest
      ((p.label, pos) :: starts, fin)

def Target.offset (starts : List (Nat × Nat)) (fin : Nat) : Target → Nat
  | block label => (starts.lookup label).getD 0
  | epilogue => fin

/-- The instructions of items that start at `pos`, with the distances of jumps filled in. -/
def resolve (target : Target → Nat) (pos : Nat) : List Item → Code
  | [] => []
  | it :: rest =>
      let next := pos + it.length
      let rel := match it with
        | .jump _ t => Int32.ofInt ((target t : Int) - next)
        | .plain _ => 0
      it.instr rel :: resolve target next rest

/-- Writes runs of blocks. An instruction without native code is reported at the end of its run, a full
buffer at the end of the run that did not fit. What was written until then stays. -/
def writeRuns (target : Target → Nat) (stop : Option AssembleFailure) (pos : Nat) (b : CodeBuffer) :
    List (List Placed) → Option AssembleFailure × CodeBuffer
  | [] => (stop, b)
  | run :: rest =>
      let items := run.flatMap Placed.items
      let b := (resolve target pos items).foldl CodeBuffer.emit b
      if rest.isEmpty ∧ stop.isSome then (stop, b)
      else
        match b.error with
        | some e => (some (.error (.overflow e)), b)
        | none => writeRuns target stop (pos + itemsLength items) b rest

def writeCode (w : Workspace) (g : Graph) (h : Homes) (b : CodeBuffer) :
    Option AssembleFailure × CodeBuffer :=
  let enter := prologue h.frameSize
  let entered := enter.foldl CodeBuffer.emit b
  match entered.error with
  | some e => (some (.error (.overflow e)), entered)
  | none =>
      let (rs, stop) := layout w g h
      let pos := b.offset.toNat + codeLength enter
      let (starts, fin) := places pos rs.flatten
      let (failure, written) := writeRuns (Target.offset starts fin) stop pos entered rs
      let done := epilogue.foldl CodeBuffer.emit written
      (failure.or (done.error.map fun e => .error (.overflow e)), done)

/-- Appends the code of a graph to a buffer. If that fails, the write position is where it was; the bytes
behind it may have been written to. -/
def assemble (w : Workspace) (b : CodeBuffer) (g : Graph) :
    Except AssembleFailure Assembled × CodeBuffer :=
  if g.blocks.isEmpty then (.error (.error .emptyGraph), b)
  else if !g.hasRoomFor Homes.entrySize then (.error (.abort none), b)
  else
    match Homes.ofGraph g with
    | .error e => (.error (.error (.home e)), b)
    | .ok h =>
        if b.isMisplaced 1 then (.error (.abort none), b)
        else
          match writeCode w g h b with
          | (some f, written) => (.error f, written.rewind b.offset)
          | (none, done) =>
              let start := b.offset.toNat
              (.ok ⟨start, done.offset.toNat - start, h.frameSize, h.spilled⟩, done)

end Dynarec.Native
