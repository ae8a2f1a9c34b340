/-!
# Binary floating point

Numbers of 53 significant bits, and the nearest of them to a fraction or to a decimal; of two that are
equally near, the one with the even last bit.
-/

namespace Dynarec.Decimal

inductive Double where
  /-- The number `m * 2^q`. There are 53 bits in `m`, or fewer if `q` is the least exponent. -/
  | finite (negative : Bool) (m : Nat) (q : Int)
  | infinite (negative : Bool)
  | nan
deriving DecidableEq, Inhabited

namespace Double

def leastExponent : Int := -1074

def mostExponent : Int := 971

def zero (negative : Bool) : Double := .finite negative 0 leastExponent

def scaled (num den : Nat) (q : Int) : Nat × Nat :=
  if 0 ≤ q then (num, den <<< q.toNat) else (num <<< (-q).toNat, den)

def nearest (num den : Nat) : Nat :=
  let k := num / den
  let r := num % den
  if den < 2 * r ∨ (2 * r = den ∧ k % 2 = 1) then k + 1 else k

/-- The exponent at which a fraction has 53 bits, or the least one. -/
def exponentOf (num den : Nat) : Int :=
  let q := (num.log2 : Int) - den.log2 - 53
  let q := if q < leastExponent then leastExponent else q
  let (a, b) := scaled num den q
  if a / b < 0x20000000000000 then q else q + 1

def ofRatio (negative : Bool) (num den : Nat) : Double :=
  if num = 0 then zero negative
  else
    let q := exponentOf num den
    let (a, b) := scaled num den q
    let m := nearest a b
    let (m, q) := if m = 0x20000000000000 then (0x10000000000000, q + 1) else (m, q)
    if mostExponent < q then .infinite negative else .finite negative m q

def ofNat (n : Nat) : Double :=
  ofRatio false n 1

def ofInt (n : Int) : Double :=
  ofRatio (n < 0) n.natAbs 1

/-- The nearest number to `n * 10^e`. Far outside the range nothing has to be computed. -/
def ofDecimal (negative : Bool) (n : Nat) (e : Int) : Double :=
  let size := (Nat.toDigits 10 n).length + e
  if n = 0 ∨ size < -330 then zero negative
  else if 310 < size then .infinite negative
  else if 0 ≤ e then ofRatio negative (n * Nat.pow 10 e.toNat) 1
  else ofRatio negative n (Nat.pow 10 (-e).toNat)

def negate : Double → Double
  | finite negative m q => .finite (!negative) m q
  | infinite negative => .infinite (!negative)
  | nan => .nan

def truncate? : Double → Option Int
  | finite negative m q =>
      let n : Nat := if 0 ≤ q then m <<< q.toNat else m >>> (-q).toNat
      some (if negative then -(n : Int) else n)
  | _ => none

/-- The number as an integer that every smaller one can be told from; a negative zero is not one. -/
def small? (x : Double) : Option Int := do
  let n ← x.truncate?
  if ofInt n = x ∧ n.natAbs ≤ 0x20000000000000 then some n else none

/-- The number as a signed word without its fraction. One that does not fit is the least word, and one
that is not finite is zero. -/
def toWord (x : Double) : UInt64 :=
  match x.truncate? with
  | none => 0
  | some n =>
      if -0x8000000000000000 ≤ n ∧ n < 0x8000000000000000 then UInt64.ofInt n else 0x8000000000000000

def isZero : Double → Bool
  | finite _ m _ => m == 0
  | _ => false

end Double

end Dynarec.Decimal
