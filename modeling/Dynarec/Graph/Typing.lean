import Dynarec.Fault
import Dynarec.Graph.Dominance

/-!
# Type checking

A graph is well formed if block `k` carries label `k` and ends in its only terminator, branches go
forward, every block is reached, every variable is defined once and before its uses, in a block that
dominates them, and operand and result types agree. The first violation in label and instruction order
is reported; branch targets and reachability come before everything else.
-/

namespace Dynarec

inductive TypeCause where
  | branchTarget (target : Int)
  | noTerminator (label : Nat)
  | earlyTerminator (label : Nat)
  | operandType (v : Value)
  | constantRange (word : UInt64) (ty : Ty)
  | undefinedVar (v : Value)
  | notDominating (v : Value) (label : Nat)
  | useType (v : Value) (defined : Ty)
  | condition (ty : Ty)
  | noTarget
  | callResult (ty : Ty)
  | alloc (slot ty : Ty)
  | unary (operand ty : Ty)
  | binary (left right ty : Ty)
  | compared (left right : Ty)
  | comparison (ty : Ty)
  | address (ty : Ty)
  | conversion (op : CvtOp) (source target : Ty)
  | unknownKind (tag : Nat)
  | resultType (ty : Ty)
  | resultRange (res : Int)
  | definedTwice (res : Int)
deriving DecidableEq

namespace TypeCause

def text : TypeCause → String
  | branchTarget t => "branch target " ++ toString t ++ " out of range"
  | noTerminator label => "block " ++ toString label ++ " does not end in a terminator"
  | earlyTerminator label => "terminator in the middle of block " ++ toString label
  | operandType v => "operand " ++ v.text ++ " has type " ++ v.ty.text
  | constantRange word t => "constant " ++ Text.hexWord word ++ " does not fit " ++ t.text
  | undefinedVar v => "use of undefined variable " ++ v.text
  | notDominating v label =>
      "definition of " ++ v.text ++ " does not dominate block " ++ toString label
  | useType v t => v.text ++ " used as " ++ v.ty.text ++ " but defined as " ++ t.text
  | condition t => "condition has type " ++ t.text ++ ", want i1"
  | noTarget => "call without target"
  | callResult t => "call result type " ++ t.text
  | alloc slot t => "alloc of " ++ slot.text ++ " yields " ++ t.text
  | unary x t => "operand " ++ x.text ++ ", result " ++ t.text
  | binary x y t => "operands " ++ x.text ++ " and " ++ y.text ++ ", result " ++ t.text
  | compared x y => "compared operands " ++ x.text ++ " and " ++ y.text
  | comparison t => "comparison yields " ++ t.text ++ ", want i1"
  | address t => "address has type " ++ t.text ++ ", want i64"
  | conversion op s t => op.name ++ " from " ++ s.text ++ " to " ++ t.text
  | unknownKind tag => "unknown instruction kind " ++ toString tag
  | resultType t => "result has type " ++ t.text
  | resultRange res => "result %" ++ toString res ++ " out of range"
  | definedTwice res => "%" ++ toString res ++ " defined twice"

end TypeCause

inductive TypeError where
  | emptyGraph
  | unreachable (label : Nat)
  | wrongLabel (position : Nat) (label : Int)
  | emptyBlock (label : Nat)
  | at (i : Instr) (cause : TypeCause)
deriving DecidableEq

namespace TypeError

def detail : TypeError → String
  | emptyGraph => "empty graph"
  | unreachable label => "block " ++ toString label ++ " is unreachable"
  | wrongLabel position label =>
      "block " ++ toString position ++ " carries label " ++ toString label
  | emptyBlock label => "block " ++ toString label ++ " is empty"
  | .at i cause => i.text ++ ": " ++ cause.text

def report (e : TypeError) : Report :=
  ⟨some .typecheck, Fault.typecheck.under e.detail⟩

def ofDominance : DominanceError → TypeError
  | .target i t => .at i (.branchTarget t)
  | .unreachable label => .unreachable label

end TypeError

/-- Where each variable is defined so far, and with which type. -/
abbrev Defs := Array (Option (Nat × Ty))

namespace Typing

def checkUse (idoms : Idoms) (defs : Defs) (label : Nat) (v : Value) : Except TypeCause Unit :=
  if !v.ty.isValid || v.ty = Ty.void then .error (.operandType v)
  else
    match v with
    | .const t word => if word &&& ~~~t.mask ≠ 0 then .error (.constantRange word t) else .ok ()
    | .var t id =>
        match (entryAt? defs id).join with
        | none => .error (.undefinedVar v)
        | some (at_, defined) =>
            if !idoms.dominates at_ label then .error (.notDominating v label)
            else if defined ≠ t then .error (.useType v defined)
            else .ok ()

def checkUses (idoms : Idoms) (defs : Defs) (label : Nat) : List Value → Except TypeCause Unit
  | [] => .ok ()
  | v :: vs => do
      checkUse idoms defs label v
      checkUses idoms defs label vs

def checkShape (i : Instr) : Except TypeCause Unit :=
  match i.op with
  | .exit => .ok ()
  | .assert c | .br c _ _ => if c.ty ≠ Ty.i1 then .error (.condition c.ty) else .ok ()
  | .call target _ =>
      if target.isNone then .error .noTarget
      else if !i.ty.isValid then .error (.callResult i.ty)
      else .ok ()
  | .alloc slot =>
      if i.ty ≠ Ty.i64 || slot = Ty.void || !slot.isValid then .error (.alloc slot i.ty) else .ok ()
  | .not x => if x.ty ≠ i.ty then .error (.unary x.ty i.ty) else .ok ()
  | .binop _ x y =>
      if x.ty ≠ y.ty ∨ x.ty ≠ i.ty then .error (.binary x.ty y.ty i.ty) else .ok ()
  | .icmp _ x y =>
      if x.ty ≠ y.ty then .error (.compared x.ty y.ty)
      else if i.ty ≠ Ty.i1 then .error (.comparison i.ty)
      else .ok ()
  | .load a | .store a _ => if a.ty ≠ Ty.i64 then .error (.address a.ty) else .ok ()
  | .read _ | .write _ _ => .ok ()
  | .cvt op x =>
      let narrows := i.ty.bits < x.ty.bits
      let widens := x.ty.bits < i.ty.bits
      if (op = .trunc ∧ ¬ narrows) ∨ (op ≠ .trunc ∧ ¬ widens) then
        .error (.conversion op x.ty i.ty)
      else .ok ()
  | .unknown tag => .error (.unknownKind tag)

def define (defs : Defs) (label : Nat) (i : Instr) : Except TypeCause Defs :=
  if !i.hasResult then .ok defs
  else if i.ty = Ty.void || !i.ty.isValid then .error (.resultType i.ty)
  else
    match entryAt? defs i.res with
    | none => .error (.resultRange i.res)
    | some (some _) => .error (.definedTwice i.res)
    | some none => .ok (defs.setIfInBounds i.res.toNat (some (label, i.ty)))

def checkInstr (idoms : Idoms) (label : Nat) (defs : Defs) (i : Instr) : Except TypeCause Defs := do
  checkUses idoms defs label i.op.operands
  checkShape i
  define defs label i

/-- A terminator stands at the end of a block and nowhere else. -/
def checkPlace (label : Nat) (i : Instr) (isLast : Bool) : Except TypeCause Unit :=
  if i.isTerminator = isLast then .ok ()
  else if isLast then .error (.noTerminator label)
  else .error (.earlyTerminator label)

def checkInstrs (idoms : Idoms) (label : Nat) (defs : Defs) : List Instr → Except TypeError Defs
  | [] => .ok defs
  | i :: rest => do
      let next ← ((do
        checkPlace label i rest.isEmpty
        checkInstr idoms label defs i) : Except TypeCause Defs).mapError (.at i)
      checkInstrs idoms label next rest

def checkBlocks (idoms : Idoms) (label : Nat) (defs : Defs) : List Block → Except TypeError Defs
  | [] => .ok defs
  | b :: rest => do
      if b.label ≠ label then .error (.wrongLabel label b.label)
      else if b.instrs.isEmpty then .error (.emptyBlock label)
      else checkBlocks idoms (label + 1) (← checkInstrs idoms label defs b.instrs) rest

end Typing

/-- The verdict on a graph; `aborted` if it declares a number of variables that no table can hold. -/
inductive Verdict where
  | accepted
  | rejected (e : TypeError)
  | aborted
deriving DecidableEq

namespace Graph

def check (g : Graph) : Except TypeError Unit := do
  let idoms ← g.dominators.mapError TypeError.ofDominance
  let _ ← Typing.checkBlocks idoms 0 (Array.replicate g.varCount.toNat none) g.blocks.toList

def typecheck (g : Graph) : Verdict :=
  if g.blocks.isEmpty then .rejected .emptyGraph
  else if !g.hasRoomFor 8 then .aborted
  else
    match g.check with
    | .ok () => .accepted
    | .error e => .rejected e

end Graph

end Dynarec
