import Dynarec.Decimal.Double

/-!
# Shortest decimals

A number is written with the fewest digits that are read back as that number. Among the decimals of one
length the nearest is taken, and of two that are equally near the even one.
-/

namespace Dynarec.Decimal

namespace Shortest

/-- The decimal `d * 10^p` in units in which it can be compared with `binarySide`. -/
def decimalSide (q p : Int) (d : Nat) : Nat :=
  (d * Nat.pow 10 p.toNat) <<< (2 - q).toNat

/-- The number `x * 2^(q - 2)` in units in which it can be compared with `decimalSide`. -/
def binarySide (q p : Int) (x : Nat) : Nat :=
  (x <<< (q - 2).toNat) * Nat.pow 10 (-p).toNat

/-- Whether `d * 10^p` is read as `m * 2^q`: it lies within half of the distance to the neighbours. The
neighbour below a power of two is only half as far away. -/
def readsBack (m : Nat) (q p : Int) (d : Nat) : Bool :=
  let least := 4 * m - (if m = 0x10000000000000 ∧ Double.leastExponent < q then 1 else 2)
  let x := decimalSide q p d
  let low := binarySide q p least
  let high := binarySide q p (4 * m + 2)
  if m % 2 = 0 then low ≤ x && x ≤ high else low < x && x < high

/-- The digits of a decimal with the last digit at `10^p` that is read back, if there is one. -/
def digitsAt? (m : Nat) (q p : Int) : Option Nat :=
  let x := binarySide q p (4 * m)
  let unit := decimalSide q p 1
  let d := x / unit
  let twice := 2 * (x % unit)
  match readsBack m q p d, readsBack m q p (d + 1) with
  | true, true => some (if twice < unit ∨ (twice = unit ∧ d % 2 = 0) then d else d + 1)
  | true, false => some d
  | false, true => some (d + 1)
  | false, false => none

/-- The first position from `p` down at which a decimal is read back. -/
def search (m : Nat) (q : Int) : Nat → Int → Nat × Int
  | 0, p => (binarySide q p (4 * m) / decimalSide q p 1, p)
  | n + 1, p =>
      match digitsAt? m q p with
      | some d => (d, p)
      | none => search m q n (p - 1)

end Shortest

/-- The shortest decimal `d * 10^p` that is read as `m * 2^q`. The search starts at a power of ten above
the number, and no number needs more than 17 digits. -/
def shortest (m : Nat) (q : Int) : Nat × Int :=
  Shortest.search m q 24 (((m.log2 : Int) + q + 1) * 30103 / 100000 + 2)

structure Layout where
  /-- The exponents of the first digit from which and below which the digits are written without an
  exponent. -/
  plainFrom : Int
  plainBelow : Int
  exponentWidth : Nat
  signedZero : Bool
  infinity : String
  negativeInfinity : String

namespace Layout

def zeros (n : Nat) : List Char := List.replicate n '0'

def plain (digits : List Char) (e : Int) : List Char :=
  let n := (e + 1).toNat
  if e < 0 then '0' :: '.' :: zeros (-e - 1).toNat ++ digits
  else if digits.length ≤ n then digits ++ zeros (n - digits.length)
  else digits.take n ++ '.' :: digits.drop n

def withExponent (l : Layout) (digits : List Char) (e : Int) : List Char :=
  let rest := digits.drop 1
  let exponent := Nat.toDigits 10 e.natAbs
  digits.take 1 ++ (if rest.isEmpty then [] else '.' :: rest) ++
    'e' :: (if e < 0 then '-' else '+') :: zeros (l.exponentWidth - exponent.length) ++ exponent

def magnitude (l : Layout) (m : Nat) (q : Int) : List Char :=
  if m = 0 then ['0']
  else
    let (d, p) := shortest m q
    let digits := Nat.toDigits 10 d
    let e := p + digits.length - 1
    if l.plainFrom ≤ e ∧ e < l.plainBelow then plain digits e else l.withExponent digits e

def write (l : Layout) : Double → String
  | .finite negative m q =>
      (if negative ∧ (m ≠ 0 ∨ l.signedZero) then "-" else "") ++ String.ofList (l.magnitude m q)
  | .infinite negative => if negative then l.negativeInfinity else l.infinity
  | .nan => "NaN"

end Layout

end Dynarec.Decimal
