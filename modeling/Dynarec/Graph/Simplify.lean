import Dynarec.Graph.Basic

/-!
# Simplification

One sweep over the blocks in label order folds constants, applies the identities of zero, drops reads
of registers whose value is known and numbers the remaining variables densely. What a variable stands
for carries over from block to block; what a register holds is forgotten at block boundaries and at
calls. A variable outside the declared range stops the sweep, which leaves the rest of the graph as it
was.
-/

namespace Dynarec

/-- What the sweep knows: the new value of every old variable, the value of some registers, and the
number of the next variable. -/
structure Sweep where
  subst : Array Value
  known : List (Int × Value) := []
  next : Nat := 0
deriving Inhabited

namespace Sweep

/-- The operands with variables replaced, up to the first that has no entry. -/
def substitute (s : Sweep) : List Value → List Value × Bool
  | [] => ([], true)
  | v :: vs =>
      match v with
      | .const _ _ =>
          let (rest, ok) := s.substitute vs
          (v :: rest, ok)
      | .var _ id =>
          match entryAt? s.subst id with
          | none => (v :: vs, false)
          | some w =>
              let (rest, ok) := s.substitute vs
              (w :: rest, ok)

def foldRightZero (op : BinOp) (t : Ty) (x : Value) : Option Value :=
  match op with
  | .add | .sub | .or | .xor | .sll | .srl | .sra => some x
  | .mul | .and => some (Value.lit t 0)
  | .udiv | .sdiv | .urem | .srem => none

def foldLeftZero (op : BinOp) (t : Ty) (y : Value) : Option Value :=
  match op with
  | .add | .or | .xor => some y
  | .mul | .and | .sll | .srl | .sra => some (Value.lit t 0)
  | .sub | .udiv | .sdiv | .urem | .srem => none

def foldBinop (op : BinOp) (t : Ty) (x y : Value) : Option Value :=
  match x, y with
  | .const _ a, .const _ b => some (Value.lit t (Eval.binop op t a b))
  | _, _ =>
      let right := if y.isZero then foldRightZero op t x else none
      let left := if x.isZero then foldLeftZero op t y else none
      right <|> left

def fold (s : Sweep) (i : Instr) : Option Value :=
  match i.op with
  | .not (.const _ a) => some (Value.lit i.ty (~~~a))
  | .binop op x y => foldBinop op i.ty x y
  | .icmp op (.const t a) (.const _ b) => some (Value.lit Ty.i1 (Eval.ofBool (Eval.cmp op t a b)))
  | .cvt op (.const t a) => some (Value.lit i.ty (Eval.cvt op t i.ty a))
  | .cvt _ x => if x.ty = i.ty then some x else none
  | .read reg =>
      match s.known.lookup reg with
      | some v => if v.ty = i.ty then some v else none
      | none => none
  | _ => none

/-- What is known of registers after an instruction that was kept. -/
def learn (s : Sweep) (i : Instr) : Sweep :=
  match i.op with
  | .read reg => { s with known := (reg, i.result) :: s.known }
  | .write reg x => { s with known := (reg, x) :: s.known }
  | .call _ _ => { s with known := [] }
  | _ => s

def record (s : Sweep) (res : Int) (v : Value) : Option Sweep :=
  if res < 0 ∨ (s.subst.size : Int) ≤ res then none
  else some { s with subst := s.subst.setIfInBounds res.toNat v }

/-- One instruction whose operands are replaced already: the instruction to keep, if any, and what is
known then. -/
def settle (s : Sweep) (i : Instr) : Option (Option Instr × Sweep) :=
  match s.fold i with
  | some v => (s.record i.res v).map fun s => (none, s)
  | none =>
      if i.hasResult then
        (s.record i.res (.var i.ty s.next)).map fun t =>
          let kept := { i with res := s.next }
          (some kept, { t with next := s.next + 1 }.learn kept)
      else some (some i, s.learn i)

/-- The instructions of a block. The flag tells whether the sweep got to their end. -/
def instrs (s : Sweep) : List Instr → List Instr × Sweep × Bool
  | [] => ([], s, true)
  | i :: rest =>
      let (operands, ok) := s.substitute i.op.operands
      let i := { i with op := i.op.withOperands operands }
      if !ok then (i :: rest, s, false)
      else
        match s.settle i with
        | none => (i :: rest, s, false)
        | some (none, s) => s.instrs rest
        | some (some kept, s) =>
            let (rest, s, done) := s.instrs rest
            (kept :: rest, s, done)

def blocks (s : Sweep) : List Block → List Block × Sweep × Bool
  | [] => ([], s, true)
  | b :: rest =>
      let (is, s, done) := { s with known := [] }.instrs b.instrs
      let b := { b with instrs := is }
      if !done then (b :: rest, s, false)
      else
        let (rest, s, done) := s.blocks rest
        (b :: rest, s, done)

end Sweep

namespace Graph

def sweep (g : Graph) : Graph × Bool :=
  if !g.hasRoomFor 24 then (g, false)
  else
    let (bs, s, done) := Sweep.blocks { subst := Array.replicate g.varCount.toNat Value.none }
      g.blocks.toList
    (⟨bs.toArray, if done then s.next else g.varCount⟩, done)

def simplify (g : Graph) : Graph :=
  g.sweep.1

end Graph

end Dynarec
