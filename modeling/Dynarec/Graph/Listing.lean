import Dynarec.Graph.Workspace
import Dynarec.Text.Cut

/-!
# Listings and outlines

A listing writes the blocks of a graph in order. An outline follows the branches from block 0: a block
is expanded where it is reached first and referred to from then on, so it is finite for cyclic graphs
too.
-/

namespace Dynarec

namespace Block

def text (reg : Int → String) (b : Block) : String :=
  "block" ++ toString b.label ++ ":\n" ++
    String.join (b.instrs.map fun i => "    " ++ i.textWith reg ++ "\n")

end Block

namespace Graph

def listing (reg : Int → String) (g : Graph) : String :=
  String.join (g.blocks.toList.map (Block.text reg))

end Graph

inductive Edge where
  | root
  | ifTrue
  | ifFalse
deriving DecidableEq

namespace Edge

def text : Edge → String
  | root => ""
  | ifTrue => "true: "
  | ifFalse => "false: "

end Edge

inductive Outline where
  | instr (i : Instr)
  | missing (edge : Edge) (label : Int)
  | again (edge : Edge) (label : Nat)
  | block (edge : Edge) (label : Nat) (items : List Outline)

namespace Outline

mutual

/-- Reaches a block. `depth` bounds the nesting; each level expands a block not seen before. -/
def reach (g : Graph) : (depth : Nat) → (seen : List Nat) → Edge → Int → Outline × List Nat
  | 0, seen, edge, label => (missing edge label, seen)
  | depth + 1, seen, edge, label =>
      match entryAt? g.blocks label with
      | none => (missing edge label, seen)
      | some b =>
          if seen.contains label.toNat then (again edge label.toNat, seen)
          else
            let (items, seen) := expand g depth (label.toNat :: seen) b.instrs
            (block edge label.toNat items, seen)
termination_by depth _ _ _ => (depth, 0)

/-- The items of a block: a branch shows what it reaches, the true side first. -/
def expand (g : Graph) : (depth : Nat) → (seen : List Nat) → List Instr → List Outline × List Nat
  | _, seen, [] => ([], seen)
  | depth, seen, i :: rest =>
      match i.op with
      | .br _ f t =>
          let (whenTrue, seen) := reach g depth seen .ifTrue t
          let (whenFalse, seen) := reach g depth seen .ifFalse f
          let (items, seen) := expand g depth seen rest
          (whenTrue :: whenFalse :: items, seen)
      | _ =>
          let (items, seen) := expand g depth seen rest
          (instr i :: items, seen)
termination_by depth _ is => (depth, is.length + 1)

end

def ofGraph (g : Graph) : Option Outline :=
  if g.blocks.isEmpty then none else some (reach g (g.blocks.size + 1) [] .root 0).1

def headText (reg : Int → String) : Outline → String
  | instr i => i.textWith reg
  | missing edge label => edge.text ++ "block" ++ toString label ++ " (missing)"
  | again edge label => edge.text ++ "-> block" ++ toString label
  | block edge label _ => edge.text ++ "block" ++ toString label

def margin (indent : String) (last : Bool) : String :=
  indent ++ (if last then "    " else "│   ")

/-- The line of one item. Names may hold line ends; what follows them stands where lines below the item
would. -/
def headLine (reg : Int → String) (indent : String) (last : Bool) (item : Outline) : String :=
  indent ++ (if last then "└── " else "├── ") ++
    ("\n" ++ margin indent last).intercalate (Text.split '\n' (headText reg item))

mutual

def lines (reg : Int → String) (indent : String) (last : Bool) : Outline → List String
  | block edge label items =>
      headLine reg indent last (block edge label []) :: linesAll reg (margin indent last) items
  | item => [headLine reg indent last item]

def linesAll (reg : Int → String) (indent : String) : List Outline → List String
  | [] => []
  | item :: rest => lines reg indent rest.isEmpty item ++ linesAll reg indent rest

end

end Outline

namespace Graph

def outlineText (reg : Int → String) (g : Graph) : String :=
  let title := "graph: " ++ toString g.blocks.size ++ " blocks, " ++ toString g.varCount ++ " vars"
  let items := match Outline.ofGraph g with
    | none => []
    | some o => Outline.linesAll reg "" [o]
  String.join ((title :: items).map fun line => line ++ "\n")

end Graph

end Dynarec
