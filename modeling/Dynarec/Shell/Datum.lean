import Dynarec.Decimal.Shortest
import Dynarec.Decimal.Spelled
import Dynarec.Text.Blank
import Dynarec.Text.Numeral
import Dynarec.Text.Units

/-!
# Values of the console

What an expression of the console can be worth, the texts of such values, and their conversion where a
word or a number is wanted.
-/

namespace Dynarec.Shell

open Decimal (Double)

inductive Datum where
  | undefined
  | null
  | number (x : Double)
  /-- A whole number of any size, which is never converted to a number. -/
  | whole (n : Int)
  | text (s : String)
  | flag (b : Bool)
  /-- Counts by name, in a fixed order. -/
  | record (fields : List (String × Nat))
  | table (fields : List (String × String))
  | function (name : String) (arity : Nat)
deriving DecidableEq, Inhabited

namespace Datum

/-- Numbers as results: small and large ones have an exponent, and no zero has a sign. -/
def resultLayout : Decimal.Layout where
  plainFrom := -6
  plainBelow := 21
  exponentWidth := 1
  signedZero := false
  infinity := "Infinity"
  negativeInfinity := "-Infinity"

/-- Numbers as they are printed, if they are not small integers. -/
def printLayout : Decimal.Layout where
  plainFrom := -4
  plainBelow := 6
  exponentWidth := 2
  signedZero := true
  infinity := "+Inf"
  negativeInfinity := "-Inf"

def render : Datum → String
  | undefined => "undefined"
  | null => "null"
  | number x => resultLayout.write x
  | whole n => toString n
  | text s => s
  | flag b => toString b
  | record _ => "[object Object]"
  | table _ => "[object Object]"
  | function name _ => "function " ++ name ++ "() \x7b [native code] \x7d"

/-- Nothing is shown of an undefined result. -/
def shown : Datum → String
  | undefined => ""
  | v => v.render

def printed : Datum → String
  | undefined => "<nil>"
  | null => "<nil>"
  | number x => (x.small?).elim (printLayout.write x) toString
  | record fields => "\x7b" ++ " ".intercalate (fields.map fun f => toString f.2) ++ "\x7d"
  | table fields =>
      let sorted := fields.mergeSort fun a b => a.1 ≤ b.1
      "map[" ++ " ".intercalate (sorted.map fun f => f.1 ++ ":" ++ f.2) ++ "]"
  | v => v.render

/-- White space around a numeral in a text; one character more than elsewhere, and one less. -/
def isMargin (c : Char) : Bool :=
  (Text.isBlank c && c.toNat != 0x85) || c.toNat == 0xfeff

def numeral (s : String) : List Char :=
  let cs := s.toList
  let cs :=
    if cs.all fun c => c.toNat < 0x80 then cs
    else ((cs.dropWhile isMargin).reverse.dropWhile isMargin).reverse
  Text.trimChars cs

/-- The base that a mark behind a zero stands for. -/
def base? (mark : Char) : Option Nat :=
  if mark == 'x' || mark == 'X' then some 16
  else if mark == 'o' || mark == 'O' then some 8
  else if mark == 'b' || mark == 'B' then some 2
  else none

def numberOf (s : String) : Double :=
  let decimal (cs : List Char) : Double :=
    match Double.read? cs with
    | some x => x
    | none =>
        if cs = "Infinity".toList ∨ cs = "+Infinity".toList then .infinite false
        else if cs = "-Infinity".toList then .infinite true
        else .nan
  match numeral s with
  | [] => .zero false
  | '0' :: mark :: d :: ds =>
      match base? mark with
      | some base =>
          match Text.parseInteger (.fixed base) 64 (d :: ds) with
          | .ok n => .ofInt n
          | .error _ => .nan
      | none => decimal ('0' :: mark :: d :: ds)
  | cs => decimal cs

/-- A value where a number is wanted; only a whole number is refused. -/
def toNumber? : Datum → Option Double
  | undefined => some .nan
  | null => some (.zero false)
  | number x => some x
  | whole _ => none
  | text s => some (numberOf s)
  | flag b => some (.ofNat (if b then 1 else 0))
  | _ => some .nan

def toWord? (v : Datum) : Option UInt64 :=
  v.toNumber?.map Double.toWord

def toFlag : Datum → Bool
  | undefined => false
  | null => false
  | number x => !(x.isZero || x == .nan)
  | whole n => n != 0
  | text s => s != ""
  | flag b => b
  | _ => true

/-- Methods that every value has, with their number of parameters. -/
def objectMethods : List (String × Nat) :=
  [("toString", 0), ("toLocaleString", 0), ("valueOf", 0), ("hasOwnProperty", 1), ("isPrototypeOf", 1),
    ("propertyIsEnumerable", 1)]

def textMethods : List (String × Nat) :=
  [("at", 1), ("charAt", 1), ("charCodeAt", 1), ("codePointAt", 1), ("concat", 1), ("endsWith", 1),
    ("includes", 1), ("indexOf", 1), ("lastIndexOf", 1), ("localeCompare", 1), ("match", 1),
    ("matchAll", 1), ("normalize", 0), ("padEnd", 1), ("padStart", 1), ("repeat", 1), ("replace", 2),
    ("replaceAll", 2), ("search", 1), ("slice", 2), ("split", 2), ("startsWith", 1), ("substr", 2),
    ("substring", 2), ("toLocaleLowerCase", 0), ("toLocaleUpperCase", 0), ("toLowerCase", 0),
    ("toUpperCase", 0), ("trim", 0), ("trimEnd", 0), ("trimStart", 0)]

def numberMethods : List (String × Nat) :=
  [("toString", 1), ("toExponential", 1), ("toFixed", 1), ("toPrecision", 1)]

def wholeMethods : List (String × Nat) :=
  [("toString", 0), ("toLocaleString", 0), ("valueOf", 0)]

def functionMethods : List (String × Nat) :=
  [("apply", 2), ("bind", 1), ("call", 1)]

def maker : Datum → String
  | number _ => "Number"
  | whole _ => "BigInt"
  | text _ => "String"
  | flag _ => "Boolean"
  | function _ _ => "Function"
  | _ => "Object"

def own? (name : String) : Datum → Option Datum
  | record fields => (fields.lookup name).map fun n => number (.ofNat n)
  | table fields => (fields.lookup name).map text
  | text s => if name = "length" then some (number (.ofNat (Text.unitCount s))) else none
  | function f arity =>
      if name = "name" then some (text f)
      else if name = "length" then some (number (.ofNat arity))
      else none
  | _ => none

/-- A method by its name; two have an older name too. -/
def method? (name : String) (v : Datum) : Option Datum :=
  let name := if name = "trimLeft" then "trimStart" else if name = "trimRight" then "trimEnd" else name
  let methods := match v with
    | number _ => numberMethods
    | whole _ => wholeMethods
    | text _ => textMethods
    | function _ _ => functionMethods
    | _ => []
  ((methods ++ objectMethods).lookup name).map fun arity => function name arity

/-- A property; an undefined value has none, and cannot be asked for one. -/
def property? (name : String) (v : Datum) : Option Datum :=
  match v with
  | undefined => none
  | null => none
  | v =>
      match v.own? name with
      | some p => some p
      | none =>
          if name = "constructor" then some (function v.maker 1)
          else some ((v.method? name).getD undefined)

end Datum

end Dynarec.Shell
