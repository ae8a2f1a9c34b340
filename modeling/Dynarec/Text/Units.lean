/-!
# Units of 16 bits

Text as units of 16 bits: a character beyond the first 65536 is a pair of surrogates. A surrogate
without its partner stands for no character and is read as the replacement character.
-/

namespace Dynarec.Text

def units (c : Char) : List Nat :=
  let n := c.toNat
  if n < 0x10000 then [n] else [0xd800 + (n - 0x10000) / 0x400, 0xdc00 + (n - 0x10000) % 0x400]

def isHighUnit (n : Nat) : Bool := 0xd800 ≤ n && n < 0xdc00

def isLowUnit (n : Nat) : Bool := 0xdc00 ≤ n && n < 0xe000

def charOfUnit (n : Nat) : Char :=
  if isHighUnit n || isLowUnit n then Char.ofNat 0xfffd else Char.ofNat n

def ofUnits : List Nat → List Char
  | [] => []
  | [n] => [charOfUnit n]
  | n :: k :: rest =>
      if isHighUnit n && isLowUnit k then
        Char.ofNat (0x10000 + (n - 0xd800) * 0x400 + (k - 0xdc00)) :: ofUnits rest
      else charOfUnit n :: ofUnits (k :: rest)

def unitCount (s : String) : Nat :=
  (s.toList.flatMap units).length

end Dynarec.Text
