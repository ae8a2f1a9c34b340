import Dynarec.Decimal.Double

/-!
# Reading decimals

A decimal is spelled with digits, a point among or beside them, and an exponent; the point and the
exponent may be left out, all digits may not.
-/

namespace Dynarec.Decimal

def natOf (digits : List Char) : Nat :=
  digits.foldl (fun n c => 10 * n + (c.toNat - '0'.toNat)) 0

/-- The digits of an exponent with its sign, up to the end. -/
def readExponent? (cs : List Char) : Option Int :=
  let (negative, digits) := match cs with
    | '-' :: ds => (true, ds)
    | '+' :: ds => (false, ds)
    | ds => (false, ds)
  if digits.isEmpty || !digits.all Char.isDigit then none
  else some (if negative then -(natOf digits : Int) else natOf digits)

/-- The decimal `n * 10^e` that is spelled without a sign. -/
def read? (cs : List Char) : Option (Nat × Int) := do
  let whole := cs.takeWhile Char.isDigit
  let rest := cs.dropWhile Char.isDigit
  let (places, rest) := match rest with
    | '.' :: ds => (ds.takeWhile Char.isDigit, ds.dropWhile Char.isDigit)
    | ds => ([], ds)
  if whole.isEmpty && places.isEmpty then none
  else
    let e ← match rest with
      | [] => some 0
      | c :: ds => if c == 'e' || c == 'E' then readExponent? ds else none
    some (natOf (whole ++ places), e - places.length)

def Double.read? (cs : List Char) : Option Double :=
  let (negative, cs) := match cs with
    | '-' :: ds => (true, ds)
    | '+' :: ds => (false, ds)
    | ds => (false, ds)
  (Decimal.read? cs).map fun (n, e) => Double.ofDecimal negative n e

end Dynarec.Decimal
