import Dynarec.Graph.Eval
import Dynarec.Host.Allocation

/-!
# Graphs

A graph is a list of blocks rooted at block 0; a block is a straight list of instructions. An
instruction is an operation together with the type and the number of the variable it defines. Nothing
here is checked: labels, branch targets, variable and register numbers are arbitrary integers and the
tag of an unknown operation is kept, so that a malformed graph can be listed, checked and rejected.
-/

namespace Dynarec

/-- A call target: the interpreter looks it up, native code calls its entry address. -/
structure Func where
  name : String
  entry : UInt64
deriving DecidableEq, Inhabited

inductive Op where
  | exit
  | assert (cond : Value)
  | br (cond : Value) (ifFalse ifTrue : Int)
  | call (target : Option Func) (params : List Value)
  | alloc (slot : Ty)
  | not (x : Value)
  | binop (op : BinOp) (x y : Value)
  | icmp (op : CmpOp) (x y : Value)
  | load (addr : Value)
  | store (addr x : Value)
  | read (reg : Int)
  | write (reg : Int) (x : Value)
  | cvt (op : CvtOp) (x : Value)
  | unknown (tag : Nat)
deriving DecidableEq, Inhabited

namespace Op

def operands : Op → List Value
  | exit => []
  | assert c => [c]
  | br c _ _ => [c]
  | call _ ps => ps
  | alloc _ => []
  | not x => [x]
  | binop _ x y => [x, y]
  | icmp _ x y => [x, y]
  | load a => [a]
  | store a x => [a, x]
  | read _ => []
  | write _ x => [x]
  | cvt _ x => [x]
  | unknown _ => []

/-- The operation with its operands replaced in order. -/
def withOperands : Op → List Value → Op
  | assert _, [c] => assert c
  | br _ f t, [c] => br c f t
  | call target _, ps => call target ps
  | not _, [x] => not x
  | binop op _ _, [x, y] => binop op x y
  | icmp op _ _, [x, y] => icmp op x y
  | load _, [a] => load a
  | store _ _, [a, x] => store a x
  | write reg _, [x] => write reg x
  | cvt op _, [x] => cvt op x
  | op, _ => op

@[simp] theorem withOperands_operands (op : Op) : op.withOperands op.operands = op := by
  cases op <;> rfl

def isTerminator : Op → Bool
  | exit => true
  | br _ _ _ => true
  | _ => false

def kindName : Op → String
  | exit => "exit"
  | assert _ => "assert"
  | br _ _ _ => "br"
  | call _ _ => "call"
  | alloc _ => "alloc"
  | not _ => "not"
  | binop _ _ _ => "binop"
  | icmp _ _ _ => "icmp"
  | load _ => "load"
  | store _ _ => "store"
  | read _ => "read"
  | write _ _ => "write"
  | cvt _ _ => "cvt"
  | unknown tag => "kind(" ++ toString tag ++ ")"

end Op

structure Instr where
  op : Op
  ty : Ty := Ty.void
  res : Int := 0
deriving DecidableEq, Inhabited

namespace Instr

def hasResult (i : Instr) : Bool :=
  match i.op with
  | .call _ _ => i.ty != Ty.void
  | .alloc _ | .not _ | .binop _ _ _ | .icmp _ _ _ | .load _ | .read _ | .cvt _ _ => true
  | .exit | .assert _ | .br _ _ _ | .store _ _ | .write _ _ | .unknown _ => false

def isTerminator (i : Instr) : Bool :=
  i.op.isTerminator

def result (i : Instr) : Value :=
  .var i.ty i.res

/-- What stands behind the result, with registers named by `reg`. -/
def bodyText (reg : Int → String) (i : Instr) : String :=
  match i.op with
  | .exit => "exit"
  | .assert c => "assert " ++ c.text
  | .br c f t => "br " ++ c.text ++ ", block" ++ toString f ++ ", block" ++ toString t
  | .call target ps =>
      let name := match target with | some fn => fn.name | none => "<nil>"
      "call." ++ i.ty.text ++ " " ++ name ++ "(" ++ ", ".intercalate (ps.map Value.text) ++ ")"
  | .alloc slot => "alloc." ++ slot.text
  | .not x => "not." ++ i.ty.text ++ " " ++ x.text
  | .binop op x y => op.name ++ "." ++ i.ty.text ++ " " ++ x.text ++ ", " ++ y.text
  | .icmp op x y => "icmp." ++ op.name ++ "." ++ x.ty.text ++ " " ++ x.text ++ ", " ++ y.text
  | .load a => "load." ++ i.ty.text ++ " " ++ a.text
  | .store a x => "store." ++ x.ty.text ++ " " ++ a.text ++ ", " ++ x.text
  | .read r => "read." ++ i.ty.text ++ " " ++ reg r
  | .write r x => "write." ++ x.ty.text ++ " " ++ reg r ++ ", " ++ x.text
  | .cvt op x => op.name ++ "." ++ x.ty.text ++ "." ++ i.ty.text ++ " " ++ x.text
  | .unknown _ => i.op.kindName

/-- One line of a listing, with registers named by `reg`. -/
def textWith (reg : Int → String) (i : Instr) : String :=
  if i.hasResult then "%" ++ toString i.res ++ " = " ++ i.bodyText reg else i.bodyText reg

def regNumber (r : Int) : String :=
  "$" ++ toString r

def text (i : Instr) : String :=
  i.textWith regNumber

end Instr

structure Block where
  label : Int
  instrs : List Instr
deriving DecidableEq, Inhabited

namespace Block

def tail? (b : Block) : Option Instr :=
  b.instrs.getLast?

end Block

structure Graph where
  blocks : Array Block
  varCount : Int
deriving DecidableEq, Inhabited

namespace Graph

def empty : Graph := ⟨#[], 0⟩

/-- Whether a table with `size` bytes for every variable can be made. -/
def hasRoomFor (g : Graph) (size : Nat) : Bool :=
  Host.canAllocate g.varCount size

def instrCount (g : Graph) : Nat :=
  (g.blocks.toList.map (fun b => b.instrs.length)).foldr (· + ·) 0

def instrs (g : Graph) : List Instr :=
  g.blocks.toList.flatMap Block.instrs

end Graph

def entryAt? {α : Type} (table : Array α) (i : Int) : Option α :=
  if i < 0 then none else table[i.toNat]?

end Dynarec
