/-!
# Hexadecimal text

Lower-case hexadecimal numerals without leading zeros, the same padded on the left to a width, and
byte strings as two digits a byte. `parseBytes?` reads the last form back.
-/

namespace Dynarec.Text

/-- Lower-case hexadecimal digits, no leading zero; zero is `0`. -/
def hexDigits (n : Nat) : List Char :=
  Nat.toDigits 16 n

/-- A numeral padded on the left with zeros up to `width` digits. -/
def padZeros (width : Nat) (digits : List Char) : List Char :=
  List.replicate (width - digits.length) '0' ++ digits

def hex (n : Nat) : String :=
  "0x" ++ String.ofList (hexDigits n)

def hexPadded (width n : Nat) : String :=
  "0x" ++ String.ofList (padZeros width (hexDigits n))

def hexWord (x : UInt64) : String :=
  hex x.toNat

/-- The sign stands before the `0x`. -/
def hexSigned (x : Int) : String :=
  if x < 0 then "-" ++ hex x.natAbs else hex x.natAbs

def hexByte (b : UInt8) : List Char :=
  padZeros 2 (hexDigits b.toNat)

def hexBytes (bs : List UInt8) : String :=
  String.ofList (bs.flatMap hexByte)

def hexDigit? (c : Char) : Option Nat :=
  if '0' ≤ c ∧ c ≤ '9' then some (c.toNat - '0'.toNat)
  else if 'a' ≤ c ∧ c ≤ 'f' then some (c.toNat - 'a'.toNat + 10)
  else if 'A' ≤ c ∧ c ≤ 'F' then some (c.toNat - 'A'.toNat + 10)
  else none

def parseHexBytes? : List Char → Option (List UInt8)
  | [] => some []
  | [_] => none
  | hi :: lo :: rest => do
      let h ← hexDigit? hi
      let l ← hexDigit? lo
      let bytes ← parseHexBytes? rest
      return (16 * h + l).toUInt8 :: bytes

/-- Reads two digits a byte; refuses an odd count and anything that is no digit. -/
def parseBytes? (s : String) : Option (List UInt8) :=
  parseHexBytes? s.toList

end Dynarec.Text
