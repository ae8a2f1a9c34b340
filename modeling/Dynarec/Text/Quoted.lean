import Dynarec.Text.Hex
import Dynarec.Text.Printable

/-!
# Quoted text

A text between double quotes, on one line. The quote and the backslash are escaped, seven control
characters have letters of their own, other characters that are not printable are written by their code
point: two hexadecimal digits below the blank and for delete, four up to U+FFFF, eight beyond.
-/

namespace Dynarec.Text

def escapeLetter? (c : Char) : Option Char :=
  match c.toNat with
  | 0x07 => some 'a'
  | 0x08 => some 'b'
  | 0x0c => some 'f'
  | 0x0a => some 'n'
  | 0x0d => some 'r'
  | 0x09 => some 't'
  | 0x0b => some 'v'
  | _ => none

def escapeCode (mark : Char) (width n : Nat) : List Char :=
  '\\' :: mark :: padZeros width (hexDigits n)

def escapeChar (c : Char) : List Char :=
  if c == '"' || c == '\\' then ['\\', c]
  else if isPrintable c then [c]
  else
    match escapeLetter? c with
    | some l => ['\\', l]
    | none =>
        let n := c.toNat
        if n < 0x20 || n == 0x7f then escapeCode 'x' 2 n
        else if n < 0x10000 then escapeCode 'u' 4 n
        else escapeCode 'U' 8 n

def quote (s : String) : String :=
  "\"" ++ String.ofList (s.toList.flatMap escapeChar) ++ "\""

/-- Whether a text can stand between back quotes as it is: on one line, without back quotes, and without
control characters but the tabulator. -/
def isRaw (s : String) : Bool :=
  s.toList.all fun c =>
    let n := c.toNat
    (0x20 ≤ n || n == 0x09) && n != 0x60 && n != 0x7f && n != 0xfeff

/-- The text between back quotes, or between double quotes if it has to be. -/
def quoteRaw (s : String) : String :=
  if isRaw s then "\x60" ++ s ++ "\x60" else quote s

end Dynarec.Text
