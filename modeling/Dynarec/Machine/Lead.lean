import Dynarec.Machine.Reg
import Dynarec.Text.Hex

/-!
# Bytes in front of an opcode

Prefixes of all groups in any order, then at most one REX byte. A byte of the REX range that is not last
is no prefix. Two bytes start vector instructions: they take one or two bytes with them.
-/

namespace Dynarec.Machine

structure Lead where
  count : Nat := 0
  isWord : Bool := false
  isShort : Bool := false
  isLocked : Bool := false
  /-- The last of the two repeat prefixes. -/
  again : Option UInt8 := none
  /-- The last segment that counts in 64-bit mode. -/
  segment : Option String := none
  hint : Option String := none
  rex : Option UInt8 := none

namespace Lead

def rexBit (c : Lead) (mask : UInt8) : Bool :=
  c.rex.any fun x => x &&& mask != 0

def fieldHigh (c : Lead) : Nat := if c.rexBit 4 then 8 else 0

def indexHigh (c : Lead) : Nat := if c.rexBit 2 then 8 else 0

def baseHigh (c : Lead) : Nat := if c.rexBit 1 then 8 else 0

def size (c : Lead) : Size :=
  if c.rexBit 8 then .qword else if c.isWord then .word else .dword

def addressSize (c : Lead) : Size :=
  if c.isShort then .dword else .qword

/-- Takes one prefix into account; other bytes are none. -/
def add? (c : Lead) (b : UInt8) : Option Lead :=
  let next := { c with count := c.count + 1 }
  if b = 0xf0 then some { next with isLocked := true }
  else if b = 0xf2 ∨ b = 0xf3 then some { next with again := some b }
  else if b = 0x26 ∨ b = 0x36 then some next
  else if b = 0x2e then some { next with hint := some "hint-not-taken " }
  else if b = 0x3e then some { next with hint := some "hint-taken " }
  else if b = 0x64 then some { next with segment := some "fs:" }
  else if b = 0x65 then some { next with segment := some "gs:" }
  else if b = 0x66 then some { next with isWord := true }
  else if b = 0x67 then some { next with isShort := true }
  else none

/-- The REX byte, if one comes next. -/
def addRex (c : Lead) : List UInt8 → Lead × List UInt8
  | b :: rest =>
      if b &&& 0xf0 = 0x40 then ({ c with count := c.count + 1, rex := some b }, rest)
      else (c, b :: rest)
  | [] => (c, [])

def prefixesOf (c : Lead) : List UInt8 → Lead × List UInt8
  | b :: rest =>
      match c.add? b with
      | some c => c.prefixesOf rest
      | none => c.addRex (b :: rest)
  | [] => (c, [])

def read (bs : List UInt8) : Lead × List UInt8 :=
  match bs with
  | 0xc5 :: _ :: rest => prefixesOf { count := 2 } rest
  | 0xc4 :: _ :: _ :: rest => prefixesOf { count := 3 } rest
  | bs => prefixesOf {} bs

/-- A byte that stands alone in a listing, because the instruction it starts is cut off or unknown. -/
def loneText (b : UInt8) : String :=
  let letter (mask : UInt8) (s : String) := if b &&& mask != 0 then s else ""
  if b = 0xf0 then "lock"
  else if b = 0xf2 then "repne"
  else if b = 0xf3 then "rep"
  else if b = 0x26 then "es"
  else if b = 0x2e then "cs"
  else if b = 0x36 then "ss"
  else if b = 0x3e then "ds"
  else if b = 0x64 then "fs"
  else if b = 0x65 then "gs"
  else if b = 0x66 then "data16"
  else if b = 0x67 then "addr32"
  else if b = 0x40 then "rex"
  else if b &&& 0xf0 = 0x40 then "rex." ++ letter 8 "w" ++ letter 4 "r" ++ letter 2 "x" ++ letter 1 "b"
  else "prefix(" ++ Text.hex b.toNat ++ ")"

end Lead

end Dynarec.Machine
