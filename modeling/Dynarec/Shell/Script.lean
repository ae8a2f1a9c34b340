import Dynarec.Shell.Datum
import Dynarec.Text.Hex

/-!
# Console expressions

A console line that is not a list of words holds expressions: a literal, a name, or a call, each
optionally with signs in front and properties behind. Readers take a list of characters and return what
they read with the rest.
-/

namespace Dynarec.Shell.Script

open Decimal (Double)

inductive Sign where
  | minus
  | plus
  | not
deriving DecidableEq

inductive Expr where
  | literal (v : Datum)
  | name (s : String)
  | call (function : String) (args : List Expr)
  | property (e : Expr) (name : String)
  | signed (sign : Sign) (e : Expr)
deriving Inhabited

/-- The value of a signed expression. A whole number has no plus. -/
def Sign.apply? (v : Datum) : Sign → Option Datum
  | minus =>
      match v with
      | .whole n => some (.whole (-n))
      | v => v.toNumber?.map fun x => .number x.negate
  | plus => v.toNumber?.map .number
  | not => some (.flag (!v.toFlag))

def isNameStart (c : Char) : Bool :=
  c.isAlpha || c == '_' || c == '$'

def isNameChar (c : Char) : Bool :=
  isNameStart c || c.isDigit

def isDigitOf (base : Nat) (c : Char) : Bool :=
  (Text.hexDigit? c).any (· < base)

/-- Splits off digits, between which underscores may stand. -/
def spanDigits (base : Nat) (cs : List Char) : List Char × List Char :=
  cs.span fun c => isDigitOf base c || c == '_'

/-- Splits off a decimal: digits, a point and an exponent. -/
def spanDecimal? (cs : List Char) : Option (List Char × List Char) :=
  let (whole, rest) := spanDigits 10 cs
  let (places, rest) := match rest with
    | '.' :: ds =>
        let (places, rest) := spanDigits 10 ds
        ('.' :: places, rest)
    | ds => ([], ds)
  match rest with
  | [] => some (whole ++ places, [])
  | c :: ds =>
      if c == 'e' || c == 'E' then
        let (sign, ds) := match ds with
          | '-' :: ds => (['-'], ds)
          | '+' :: ds => (['+'], ds)
          | ds => ([], ds)
        let (exponent, rest) := spanDigits 10 ds
        if exponent.head?.any Char.isDigit then some (whole ++ places ++ c :: sign ++ exponent, rest)
        else none
      else some (whole ++ places, c :: ds)

/-- Splits off a numeral. One that starts with a zero and has neither a mark nor a point nor an exponent
behind it is octal. -/
def spanNumeral? (cs : List Char) : Option (List Char × List Char) :=
  match cs with
  | '0' :: c :: ds =>
      match Datum.base? c with
      | some base =>
          let (digits, rest) := spanDigits base ds
          if digits.head?.any (isDigitOf base) then some ('0' :: c :: digits, rest) else none
      | none =>
          if c == '.' || c == 'e' || c == 'E' then spanDecimal? cs
          else
            let (digits, rest) := (c :: ds).span (isDigitOf 8)
            some ('0' :: digits, rest)
  | cs => spanDecimal? cs

/-- A hexadecimal numeral beyond the words, rounded from digit to digit. -/
def longHex (digits : List Char) : Double :=
  .ofInt (digits.foldl (fun x c =>
    ((Double.ofInt (16 * x + (Text.hexDigit? c).getD 0)).truncate?).getD 0) 0)

def valueOf? (cs : List Char) : Option Double :=
  match Text.parseInteger .spelled 64 cs with
  | .ok n => some (.ofInt n)
  | .error e =>
      let decimal :=
        if cs.contains '_' && !Text.underscoresSeparate cs then none
        else Double.read? (cs.filter (· != '_'))
      match decimal, cs with
      | some x, _ => some x
      | none, '0' :: mark :: digits =>
          if e = .outOfRange ∧ Datum.base? mark = some 16 ∧ !digits.contains '_' then some (longHex digits)
          else none
      | none, _ => none

/-- The value of a numeral that is marked as a whole number; it is not octal without a mark. -/
def wholeOf? (cs : List Char) : Option Int :=
  if cs.head? = some '0' ∧ cs[1]?.any Char.isDigit then none
  else (Text.parseNatural .spelled (4 * cs.length) cs).toOption.map Int.ofNat

/-- Reads a numeral, which no name may follow directly but an `n`, the mark of a whole number. -/
def readNumber (cs : List Char) : Option (Datum × List Char) := do
  let (numeral, rest) ← spanNumeral? cs
  match rest with
  | 'n' :: rest => return (.whole (← wholeOf? numeral), rest)
  | rest =>
      if rest.head?.any isNameChar then none
      else return (.number (← valueOf? numeral), rest)

def isLineEnd (c : Char) : Bool :=
  c == '\n' || c == '\r' || c.toNat == 0x2028 || c.toNat == 0x2029

def hexValue? (cs : List Char) : Option Nat :=
  if cs.isEmpty then none
  else cs.foldl (fun n c => do return 16 * (← n) + (← Text.hexDigit? c)) (some 0)

/-- The units of an escape behind its backslash, and the rest. An escaped end of a line has no units. -/
def readEscape : List Char → Option (List Nat × List Char)
  | [] => none
  | 'n' :: cs => some ([0x0a], cs)
  | 't' :: cs => some ([0x09], cs)
  | 'r' :: cs => some ([0x0d], cs)
  | 'b' :: cs => some ([0x08], cs)
  | 'v' :: cs => some ([0x0b], cs)
  | 'f' :: cs => some ([0x0c], cs)
  | '\r' :: '\n' :: cs => some ([], cs)
  | 'x' :: cs =>
      if cs.length < 2 then none else (hexValue? (cs.take 2)).map fun n => ([n], cs.drop 2)
  | 'u' :: '\x7b' :: cs => do
      let digits := cs.takeWhile (· != '\x7d')
      let n ← hexValue? digits
      if 0x10ffff < n then none
      else
        let rest ← match cs.drop digits.length with
          | _ :: rest => some rest
          | [] => none
        return (if 0x10000 ≤ n then Text.units (Char.ofNat n) else [n], rest)
  | 'u' :: cs =>
      if cs.length < 4 then none else (hexValue? (cs.take 4)).map fun n => ([n], cs.drop 4)
  | c :: cs =>
      if isLineEnd c then some ([], cs)
      else if isDigitOf 8 c then
        let digits := c :: (cs.take 2).takeWhile (isDigitOf 8)
        some ([digits.foldl (fun n d => 8 * n + (d.toNat - '0'.toNat)) 0], cs.drop (digits.length - 1))
      else some (Text.units c, cs)

/-- Reads the units of a quoted text up to its closing quote. -/
def readUnits (quote : Char) : Nat → List Char → Option (List Nat × List Char)
  | 0, _ => none
  | _ + 1, [] => none
  | fuel + 1, c :: cs =>
      if c == quote then some ([], cs)
      else if c == '\n' || c == '\r' then none
      else do
        let (front, cs) ← if c == '\\' then readEscape cs else some (Text.units c, cs)
        let (units, rest) ← readUnits quote fuel cs
        return (front ++ units, rest)

def readText (quote : Char) (cs : List Char) : Option (String × List Char) :=
  (readUnits quote (cs.length + 1) cs).map fun (units, rest) =>
    (String.ofList (Text.ofUnits units), rest)

/-- What is behind the comment that starts behind its opening mark. -/
def afterComment : List Char → Option (List Char)
  | '*' :: '/' :: rest => some rest
  | _ :: rest => afterComment rest
  | [] => none

/-- Skips white space and comments; the flag says whether a line ended there. -/
def skip : Nat → Bool → List Char → Bool × List Char
  | 0, ended, cs => (ended, cs)
  | fuel + 1, ended, cs =>
      match cs with
      | '/' :: '/' :: rest => skip fuel ended (rest.dropWhile fun c => !isLineEnd c)
      | '/' :: '*' :: rest =>
          match afterComment rest with
          | some after =>
              let inside := rest.take (rest.length - after.length)
              skip fuel (ended || inside.any isLineEnd) after
          | none => (ended, cs)
      | c :: rest =>
          if Text.isBlank c || c.toNat == 0xfeff then skip fuel (ended || isLineEnd c) rest else (ended, cs)
      | [] => (ended, [])

def skipBlanks (cs : List Char) : List Char :=
  (skip (cs.length + 1) false cs).2

def named (s : String) : Expr :=
  match s with
  | "true" => .literal (.flag true)
  | "false" => .literal (.flag false)
  | "null" => .literal .null
  | "undefined" => .literal .undefined
  | "NaN" => .literal (.number .nan)
  | "Infinity" => .literal (.number (.infinite false))
  | s => .name s

mutual

/-- Reads an expression without blanks in front. A sign is not written twice in a row. -/
def readExpr : Nat → List Char → Option (Expr × List Char)
  | 0, _ => none
  | fuel + 1, cs =>
      match cs with
      | [] => none
      | c :: rest =>
          let signed (sign : Sign) : Option (Expr × List Char) := do
            let (e, rest) ← readExpr fuel (skipBlanks rest)
            return (.signed sign e, rest)
          if c == '!' then signed .not
          else if c == '-' || c == '+' then
            if rest.head? = some c then none else signed (if c == '-' then .minus else .plus)
          else if c == '"' || c == '\'' then do
            let (s, rest) ← readText c rest
            readProperties fuel (.literal (.text s)) rest
          else if c.isDigit || (c == '.' && rest.head?.any Char.isDigit) then do
            let (v, rest) ← readNumber cs
            readProperties fuel (.literal v) rest
          else if c == '(' then do
            let (e, rest) ← readExpr fuel (skipBlanks rest)
            match skipBlanks rest with
            | ')' :: rest => readProperties fuel e rest
            | _ => none
          else if isNameStart c then
            let name := String.ofList (cs.takeWhile isNameChar)
            let rest := cs.dropWhile isNameChar
            match skipBlanks rest with
            | '(' :: rest => do
                let (args, rest) ← readArgs fuel (skipBlanks rest)
                readProperties fuel (.call name args) rest
            | _ => readProperties fuel (named name) rest
          else none

def readArgs : Nat → List Char → Option (List Expr × List Char)
  | 0, _ => none
  | fuel + 1, cs =>
      match cs with
      | ')' :: rest => some ([], rest)
      | cs => do
          let (e, rest) ← readExpr fuel cs
          match skipBlanks rest with
          | ',' :: rest => do
              let (es, rest) ← readArgs fuel (skipBlanks rest)
              return (e :: es, rest)
          | ')' :: rest => return ([e], rest)
          | _ => none

/-- Reads the properties behind an expression, and leaves blanks behind them. -/
def readProperties : Nat → Expr → List Char → Option (Expr × List Char)
  | 0, _, _ => none
  | fuel + 1, e, cs =>
      match skipBlanks cs with
      | '.' :: rest =>
          match skipBlanks rest with
          | [] => none
          | c :: cs =>
              if isNameStart c then
                readProperties fuel (.property e (String.ofList (c :: cs.takeWhile isNameChar)))
                  (cs.dropWhile isNameChar)
              else none
      | _ => some (e, cs)

end

/-- Reads expressions, each of which ends with a semicolon, with its line, or with the text. -/
def readAll : Nat → List Char → Option (List Expr)
  | 0, _ => none
  | fuel + 1, cs =>
      match skipBlanks cs with
      | [] => some []
      | ';' :: rest => readAll fuel rest
      | cs => do
          let (e, rest) ← readExpr (2 * cs.length + 2) cs
          let (ended, behind) := skip (rest.length + 1) false rest
          match behind with
          | [] => return [e]
          | ';' :: rest => return e :: (← readAll fuel rest)
          | rest => if ended then return e :: (← readAll fuel rest) else none

def parse (line : List Char) : Option (List Expr) :=
  readAll (line.length + 1) line

end Dynarec.Shell.Script
