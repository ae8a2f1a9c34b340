import Dynarec.Guest.StateText
import Dynarec.Guest.WordText
import Dynarec.Shell.Script
import Dynarec.Shell.Session

/-!
# The console

Words typed on a line are run at the current address; other lines are expressions over the functions of
the console.
-/

namespace Dynarec.Shell

inductive ConsoleError where
  /-- The line is no expression that can be evaluated. -/
  | script
  | failure (f : Failure Report)
deriving DecidableEq

structure Console where
  session : Session
  addr : UInt64
  printed : String := ""

namespace Console

/-- What a line does: it may change the console, also when it fails. -/
abbrev Action := ExceptT ConsoleError (StateM Console)

def fail {α : Type} (r : Report) : Action α :=
  throw (.failure (.error r))

def words (s : String) : Action (List UInt8) :=
  match Guest.parseWords s with
  | .ok code => pure code
  | .error r => fail r

def explain (s : String) : Action Explanation := do
  let code ← words s
  let c ← get
  let (x, f, engine) := c.session.engine.explain c.addr code
  set { c with session.engine := engine }
  match f with
  | some f => throw (.failure (Session.reportAll f))
  | none => return x.getD {}

def run (s : String) : Action Unit := do
  let code ← words s
  let c ← get
  let (r, session) := c.session.run c.addr code true
  set { c with session }
  match r with
  | .ok () => pure ()
  | .error f => throw (.failure f)

def register (name : String) : Action Nat :=
  match Guest.Register.ofName? name with
  | some id => pure id
  | none => fail (.plain ("unknown register " ++ Text.quote name))

open Script (Expr)

def statsDatum (e : Engine) : Datum :=
  let s := e.stats
  .record [("Hits", s.hits), ("Misses", s.misses), ("Compiles", s.compiles), ("Fallbacks", s.fallbacks),
    ("Retries", s.retries), ("Invalidations", s.invalidations), ("Executions", s.executions),
    ("Cached", e.cache.entries)]

/-- Calls a function. Arguments left out are empty or zero, and those too many are ignored. -/
def call (function : String) (args : List Datum) : Action Datum := do
  let text (k : Nat) : String := (args[k]?).elim "" Datum.render
  let word (k : Nat) : Action UInt64 :=
    match (args[k]?).elim (some 0) Datum.toWord? with
    | some x => pure x
    | none => throw .script
  match function with
  | "ir" => return .text (← explain (text 0)).simplified
  | "asm" => return .text (String.join ((← explain (text 0)).assembly.map (· ++ "\n")))
  | "run" => do
      run (text 0)
      let c ← get
      return .table (c.session.registers.map fun (name, x) => (name, Text.hexWord x))
  | "reg" => do
      let id ← register (text 0)
      let c ← get
      return .number (.ofNat (Session.state.get c.session.host.cells id).toNat)
  | "setreg" => do
      let x ← word 1
      let id ← register (text 0)
      modify fun c => { c with session := c.session.setAll [(id, x)] }
      return .undefined
  | "at" => do
      let addr ← word 0
      modify fun c => { c with addr }
      return .undefined
  | "invalidate" => do
      let start ← word 0
      let stop ← word 1
      let c ← get
      let (n, engine) := c.session.engine.invalidate start stop
      set { c with session.engine := engine }
      return .number (.ofNat n)
  | "stats" => return statsDatum (← get).session.engine
  | "print" => do
      modify fun c => { c with printed := c.printed ++ String.join (args.map (·.printed ++ "\n")) }
      return .undefined
  | _ => throw .script

def functions : List (String × Nat) :=
  [("ir", 1), ("asm", 1), ("run", 1), ("reg", 1), ("setreg", 2), ("at", 1), ("invalidate", 2),
    ("stats", 0), ("print", 1)]

mutual

def evaluate : Expr → Action Datum
  | .literal v => return v
  | .name s =>
      match functions.lookup s with
      | some arity => return .function s arity
      | none => throw .script
  | .call function args => do
      if (functions.lookup function).isNone then throw .script
      let args ← evaluateAll args
      call function args
  | .property e name => do
      match (← evaluate e).property? name with
      | some v => return v
      | none => throw .script
  | .signed sign e => do
      match sign.apply? (← evaluate e) with
      | some v => return v
      | none => throw .script

def evaluateAll : List Expr → Action (List Datum)
  | [] => return []
  | e :: es => do
      let v ← evaluate e
      return v :: (← evaluateAll es)

end

def isWord (piece : List Char) : Bool :=
  let digits := match piece with
    | '0' :: 'x' :: cs => cs
    | cs => cs
  !digits.isEmpty && digits.length ≤ 8 && digits.all fun c => (Text.hexDigit? c).isSome

/-- Whether a line holds words and nothing else, divided by blanks and commas. -/
def isWords (line : List Char) : Bool :=
  let divides (c : Char) := c == ' ' || c == ','
  let pieces := (line.splitBy fun a b => divides a == divides b).filter fun p => !p.any divides
  !pieces.isEmpty && pieces.all isWord && !line.head?.any divides && !line.getLast?.any divides

def evaluateLine (line : String) : Action String := do
  let line := Text.trim line
  if line = "" then return ""
  if isWords line.toList then
    run line
    let s := (← get).session
    return String.join ((Session.state.lines s.host.cells s.width).map (· ++ "\n"))
  match Script.parse line.toList with
  | none => throw .script
  | some es => return ((← evaluateAll es).getLast?.getD .undefined).shown

/-- Evaluates one line: the text to show, what was printed on the way, and the console after it. -/
def line (c : Console) (s : String) : Except ConsoleError String × String × Console :=
  let (r, c) := (evaluateLine s).run { c with printed := "" }
  (r, c.printed, { c with printed := "" })

end Console

end Dynarec.Shell
