import Dynarec.Graph.Basic

/-!
# Immediate dominators

Branches only go forward, so label order is a topological order and one pass over the blocks finds the
immediate dominator of every block. The pass fails if a branch at the end of a block leaves the graph
or goes backward, or if some block is not reached from block 0.
-/

namespace Dynarec

/-- The immediate dominator of each block that has been reached; block 0 has itself. -/
abbrev Idoms := Array (Option Nat)

namespace Idoms

def get (idoms : Idoms) (a : Nat) : Nat :=
  ((idoms[a]?).join).getD 0

/-- The nearest common dominator: the larger label climbs until both agree. -/
def meet (idoms : Idoms) (a b : Nat) : Nat :=
  if a = b then a
  else if b < a then
    if idoms.get a < a then meet idoms (idoms.get a) b else a
  else
    if idoms.get b < b then meet idoms a (idoms.get b) else b
termination_by a + b

/-- Climbs from `b` while it lies above `a`. -/
def climb (idoms : Idoms) (a b : Nat) : Nat :=
  if a < b then
    if idoms.get b < b then climb idoms a (idoms.get b) else b
  else b
termination_by b

def dominates (idoms : Idoms) (a b : Nat) : Bool :=
  climb idoms a b == a

/-- A block learns of one more edge that reaches it. -/
def addEdge (idoms : Idoms) (source target : Nat) : Idoms :=
  match (idoms[target]?).join with
  | none => idoms.setIfInBounds target (some source)
  | some d => idoms.setIfInBounds target (some (idoms.meet d source))

end Idoms

inductive DominanceError where
  | target (i : Instr) (target : Int)
  | unreachable (label : Nat)
deriving DecidableEq

namespace Graph

/-- The edges of the branch `i` at the end of block `label`, false side first. -/
def addTargets (count : Nat) (i : Instr) (label : Nat) (idoms : Idoms) :
    List Int → Except DominanceError Idoms
  | [] => .ok idoms
  | t :: rest =>
      if t ≤ label ∨ (count : Int) ≤ t then .error (.target i t)
      else if ((idoms[label]?).join).isNone then addTargets count i label idoms rest
      else addTargets count i label (idoms.addEdge label t.toNat) rest

def addBlocks (count : Nat) (idoms : Idoms) (label : Nat) :
    List Block → Except DominanceError Idoms
  | [] => .ok idoms
  | b :: rest =>
      match b.tail? with
      | some i =>
          match i.op with
          | .br _ f t => do addBlocks count (← addTargets count i label idoms [f, t]) (label + 1) rest
          | _ => addBlocks count idoms (label + 1) rest
      | none => addBlocks count idoms (label + 1) rest

def firstUnreached (idoms : Idoms) : Option Nat :=
  (List.range idoms.size).find? fun k => ((idoms[k]?).join).isNone

def dominators (g : Graph) : Except DominanceError Idoms := do
  let count := g.blocks.size
  let idoms ← addBlocks count ((Array.replicate count none).setIfInBounds 0 (some 0)) 0
    g.blocks.toList
  match firstUnreached idoms with
  | some label => .error (.unreachable label)
  | none => .ok idoms

end Graph

end Dynarec
