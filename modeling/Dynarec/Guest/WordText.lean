import Dynarec.Fault
import Dynarec.Guest.Mnemonic
import Dynarec.Text.Blank
import Dynarec.Text.Case
import Dynarec.Text.Numeral

/-!
# Instruction words as text

Words are read as hexadecimal numerals with or without `0x`, in either case, separated by blanks, commas,
tabs and line ends; they are listed one a line with their address and mnemonic.
-/

namespace Dynarec.Guest

def isSeparator (c : Char) : Bool :=
  c == ' ' || c == ',' || c == '\t' || c == '\n'

/-- The maximal runs of characters that do not separate; `open_` is the run being read, last character
first. -/
def piecesFrom (open_ : List Char) : List Char → List (List Char)
  | [] => if open_.isEmpty then [] else [open_.reverse]
  | c :: cs =>
      if isSeparator c then
        if open_.isEmpty then piecesFrom [] cs else open_.reverse :: piecesFrom [] cs
      else piecesFrom (c :: open_) cs

def pieces (s : String) : List (List Char) :=
  piecesFrom [] s.toList

def digitsOf (piece : List Char) : List Char :=
  match piece.map Text.lowerChar with
  | '0' :: 'x' :: cs => cs
  | cs => cs

def readWord (piece : List Char) : Except Report Word :=
  let digits := String.ofList (digitsOf piece)
  match Text.readNatural (.fixed 16) 32 digits with
  | .ok n => .ok ⟨n.toUInt32⟩
  | .error e => .error (.plain ("word " ++ Text.quote digits ++ ": " ++ e))

def readWords : List (List Char) → Except Report (List Word)
  | [] => .ok []
  | p :: ps => do
      let w ← readWord p
      let ws ← readWords ps
      return w :: ws

/-- Reads a list of words; the bytes have the most significant first. -/
def parseWords (s : String) : Except Report (List UInt8) :=
  (readWords (pieces s)).map Word.toBytes

/-- Reads words from the arguments of a command, of which there must be at least one. -/
def parseCode (args : List String) : Except Report (List UInt8) := do
  let code ← parseWords (" ".intercalate args)
  if code.isEmpty then .error (.plain "no instruction words") else .ok code

/-- Address, word and mnemonic of each whole word; `?` where there is none. -/
def listWords (addr : UInt64) : List UInt8 → List String
  | a :: b :: c :: d :: rest =>
      let w := Word.ofBytes a b c d
      let name := match w.decode with | some m => m.name | none => "?"
      (Text.hexPadded 4 addr.toNat ++ ": " ++
        String.ofList (Text.padZeros 8 (Text.hexDigits w.bits.toNat)) ++ "  " ++ name) ::
          listWords (addr + 4) rest
  | _ => []

end Dynarec.Guest
