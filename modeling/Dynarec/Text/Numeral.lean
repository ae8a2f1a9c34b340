import Dynarec.Text.Quoted

/-!
# Reading numerals

Unsigned and signed numerals in a fixed base, or in the base their own spelling names: `0x`, `0o`, `0b`,
a leading zero for octal, decimal otherwise. Only a numeral that names its own base may hold
underscores, each between two digits or behind the base. Reading goes from left to right, so a numeral
that grows too large is out of range even when a later character is no digit.
-/

namespace Dynarec.Text

inductive NumeralError where
  | malformed
  | outOfRange
deriving DecidableEq, Inhabited

namespace NumeralError

def reason : NumeralError → String
  | malformed => "invalid syntax"
  | outOfRange => "value out of range"

/-- What is reported for the text `given`; `reader` names the kind of numeral that was wanted. -/
def text (reader given : String) (e : NumeralError) : String :=
  "strconv." ++ reader ++ ": parsing " ++ quote given ++ ": " ++ e.reason

end NumeralError

inductive Base where
  | fixed (n : Nat)
  | spelled
deriving DecidableEq

namespace Base

def isSpelled : Base → Bool
  | spelled => true
  | fixed _ => false

/-- The base in force and the characters that are left for digits. -/
def resolve : Base → List Char → Nat × List Char
  | fixed n, cs => (n, cs)
  | spelled, '0' :: m :: d :: cs =>
      if m == 'b' || m == 'B' then (2, d :: cs)
      else if m == 'o' || m == 'O' then (8, d :: cs)
      else if m == 'x' || m == 'X' then (16, d :: cs)
      else (8, m :: d :: cs)
  | spelled, '0' :: cs => (8, cs)
  | spelled, cs => (10, cs)

end Base

/-- The value of a digit or letter, whatever the base. -/
def alnum? (c : Char) : Option Nat :=
  if '0' ≤ c ∧ c ≤ '9' then some (c.toNat - '0'.toNat)
  else if 'a' ≤ c ∧ c ≤ 'z' then some (c.toNat - 'a'.toNat + 10)
  else if 'A' ≤ c ∧ c ≤ 'Z' then some (c.toNat - 'A'.toNat + 10)
  else none

/-- The digits read so far are worth `acc`; `limit` is the first value out of range. -/
def readDigits (base limit : Nat) (underscores : Bool) (acc : Nat) :
    List Char → Except NumeralError Nat
  | [] => .ok acc
  | c :: cs =>
      if underscores && c == '_' then readDigits base limit underscores acc cs
      else
        match alnum? c with
        | none => .error .malformed
        | some d =>
            if base ≤ d then .error .malformed
            else if limit ≤ acc * base + d then .error .outOfRange
            else readDigits base limit underscores (acc * base + d) cs

inductive Before where
  | start | digit | underscore | other
deriving DecidableEq

def separated (hexadecimal : Bool) (before : Before) : List Char → Bool
  | [] => before != .underscore
  | c :: cs =>
      if c.isDigit || (hexadecimal && (('a' ≤ c ∧ c ≤ 'f') || ('A' ≤ c ∧ c ≤ 'F'))) then
        separated hexadecimal .digit cs
      else if c == '_' then
        before == .digit && separated hexadecimal .underscore cs
      else
        before != .underscore && separated hexadecimal .other cs

/-- Every underscore stands behind a digit or the base and in front of a digit. -/
def underscoresSeparate : List Char → Bool
  | '0' :: m :: cs =>
      if m == 'x' || m == 'X' then separated true .digit cs
      else if m == 'b' || m == 'B' || m == 'o' || m == 'O' then separated false .digit cs
      else separated false .start ('0' :: m :: cs)
  | cs => separated false .start cs

def parseNatural (base : Base) (bits : Nat) (s : List Char) : Except NumeralError Nat :=
  if s.isEmpty then .error .malformed
  else
    let (n, digits) := base.resolve s
    match readDigits n (1 <<< bits) base.isSpelled 0 digits with
    | .error e => .error e
    | .ok v =>
        if base.isSpelled && s.contains '_' && !underscoresSeparate s then .error .malformed
        else .ok v

/-- A numeral with an optional sign, in two's-complement range. -/
def parseInteger (base : Base) (bits : Nat) (s : List Char) : Except NumeralError Int :=
  let unsigned (cs : List Char) := parseNatural base bits cs
  let half := 1 <<< (bits - 1)
  match s with
  | '-' :: cs => do
      let n ← unsigned cs
      if half < n then .error .outOfRange else .ok (-(n : Int))
  | cs => do
      let n ← unsigned (match cs with | '+' :: rest => rest | _ => cs)
      if half ≤ n then .error .outOfRange else .ok (n : Int)

def readNatural (base : Base) (bits : Nat) (s : String) : Except String Nat :=
  (parseNatural base bits s.toList).mapError (NumeralError.text "ParseUint" s)

def readInteger (base : Base) (bits : Nat) (s : String) : Except String Int :=
  (parseInteger base bits s.toList).mapError (NumeralError.text "ParseInt" s)

end Dynarec.Text
