import Dynarec.Fault.Parts

/-!
# Spans

A span is a record of one operation of the engine: its name, facts about it, what happened on the way,
and whether it failed.
-/

namespace Dynarec

inductive Fact where
  | text (s : String)
  | number (n : Int)
  | flag (b : Bool)
deriving DecidableEq, Inhabited

abbrev Facts := List (String × Fact)

namespace Facts

/-- Sets a fact; an earlier value for the same key is replaced. -/
def set (fs : Facts) (key : String) (x : Fact) : Facts :=
  if fs.any fun f => f.1 == key then fs.map fun f => if f.1 == key then (key, x) else f
  else fs ++ [(key, x)]

end Facts

structure Event where
  name : String
  facts : Facts
deriving DecidableEq, Inhabited

structure Span where
  name : String
  facts : Facts := []
  events : List Event := []
  failure : Option String := none
deriving DecidableEq, Inhabited

namespace Span

def fact (s : Span) (key : String) (x : Fact) : Span :=
  { s with facts := s.facts.set key x }

def event (s : Span) (name : String) (facts : Facts) : Span :=
  { s with events := s.events ++ [⟨name, facts⟩] }

def exception (s : Span) (r : Report) : Span :=
  s.event "exception" [("exception.message", .text r.text)]

def fail (s : Span) (r : Report) : Span :=
  { s.exception r with failure := some (Report.namePart r.text) }

end Span

end Dynarec
