import Dynarec.Fault
import Dynarec.Guest.State
import Dynarec.Text.Blank
import Dynarec.Text.Numeral

/-!
# Register values as text

Assignments `name=value` are read, and the registers that are not zero are listed.
-/

namespace Dynarec.Guest

def cutAssignment (s : String) : Option (String × String) :=
  let cs := s.toList
  if cs.contains '=' then
    some (String.ofList (cs.takeWhile (· != '=')), String.ofList ((cs.dropWhile (· != '=')).drop 1))
  else none

def parseAssignment (s : String) : Except Report (Nat × UInt64) :=
  match cutAssignment s with
  | none => .error (.plain ("register assignment " ++ Text.quote s ++ ": want name=value"))
  | some (name, given) =>
      match Register.ofName? (Text.trim name) with
      | none => .error (.plain ("unknown register " ++ Text.quote name))
      | some id =>
          match Text.readNatural .spelled 64 (Text.trim given) with
          | .error e => .error (.plain ("register " ++ name ++ ": " ++ e))
          | .ok n => .ok (id, n.toUInt64)

/-- The assignments in order; a later one wins. -/
def parseAssignments : List String → Except Report (List (Nat × UInt64))
  | [] => .ok []
  | s :: rest => do
      let a ← parseAssignment s
      let as ← parseAssignments rest
      return a :: as

def State.setAll (s : State) (c : Cells) (as : List (Nat × UInt64)) : Cells :=
  as.foldl (fun c (id, x) => s.set c id x) c

/-- Name and value of each register that is not zero, the value with all digits of its width. -/
def State.lines (s : State) (c : Cells) (t : Ty) : List String :=
  (s.nonzero c t).map fun (id, x) =>
    Text.padRight 8 (Register.name id) ++ " " ++ Text.hexPadded (2 * t.bytes) x.toNat

end Dynarec.Guest
