import Dynarec.Text.Numeral

/-!
# TOML scalars

Strings in their four spellings, and what numerals stand for. Every reader takes the characters from the
start of the scalar on and gives the value with what stands behind it.
-/

namespace Dynarec.Toml

abbrev Reader (α : Type) := List Char → Option (α × List Char)

/-- Control characters other than tab and line end stand in no text. -/
def isForbidden (c : Char) : Bool :=
  let n := c.toNat
  (n < 0x20 && n != 0x09 && n != 0x0a && n != 0x0d) || n == 0x7f

def isLineEnd (c : Char) : Bool :=
  c == '\n' || c == '\r'

def isInlineBlank (c : Char) : Bool :=
  c == ' ' || c == '\t'

def skipBlanks (cs : List Char) : List Char :=
  cs.dropWhile isInlineBlank

def codePoint? (digits : List Char) : Option Char := do
  let ds ← digits.mapM Text.hexDigit?
  let n := ds.foldl (fun n d => 16 * n + d) 0
  if n ≤ 0x10ffff ∧ ¬(0xd800 ≤ n ∧ n < 0xe000) then some (Char.ofNat n) else none

/-- The character of an escape and how many characters it takes behind the backslash. -/
def escape? : List Char → Option (Char × Nat)
  | '"' :: _ => some ('"', 1)
  | '\\' :: _ => some ('\\', 1)
  | 'b' :: _ => some ('\x08', 1)
  | 'e' :: _ => some ('\x1b', 1)
  | 'f' :: _ => some ('\x0c', 1)
  | 'n' :: _ => some ('\n', 1)
  | 'r' :: _ => some ('\r', 1)
  | 't' :: _ => some ('\t', 1)
  | 'u' :: cs => if cs.length < 4 then none else (codePoint? (cs.take 4)).map (·, 5)
  | 'U' :: cs => if cs.length < 8 then none else (codePoint? (cs.take 8)).map (·, 9)
  | _ => none

/-- The rest of a string between double quotes; `out` is what was read, last character first. -/
def basicBody (out : List Char) : (fuel : Nat) → Reader String
  | 0, _ => none
  | _, [] => none
  | fuel + 1, c :: cs =>
      if c == '"' then some (String.ofList out.reverse, cs)
      else if isLineEnd c || isForbidden c then none
      else if c == '\\' then
        match escape? cs with
        | some (x, n) => basicBody (x :: out) fuel (cs.drop n)
        | none => none
      else basicBody (c :: out) fuel cs

/-- The rest of a string between single quotes. -/
def literalBody (out : List Char) : Reader String
  | [] => none
  | c :: cs =>
      if c == '\'' then some (String.ofList out.reverse, cs)
      else if isLineEnd c || isForbidden c then none
      else literalBody (c :: out) cs

/-- The quotes at the end of a string over several lines: three close it, and up to two more in front
of them belong to it. -/
def closing (quote : Char) (out cs : List Char) : Option (String × List Char) :=
  let run := cs.takeWhile (· == quote)
  if 5 < run.length then none
  else some (String.ofList (List.replicate (run.length - 3) quote ++ out).reverse, cs.drop run.length)

def startsWith (start cs : List Char) : Bool :=
  cs.take start.length == start

/-- Whether every carriage return stands in front of a line feed. -/
def returnsPaired : List Char → Bool
  | [] => true
  | '\r' :: cs => startsWith ['\n'] cs && returnsPaired cs
  | _ :: cs => returnsPaired cs

/-- Whether a backslash stands at the end of its line. -/
def endsLine (cs : List Char) : Bool :=
  let rest := skipBlanks cs
  startsWith ['\n'] rest || startsWith ['\r', '\n'] rest

/-- What stands behind a backslash at the end of a line: all blanks and line ends that follow are left
out. -/
def continuation? (cs : List Char) : Option (List Char) :=
  let isGap (c : Char) := isInlineBlank c || isLineEnd c
  if returnsPaired (cs.takeWhile isGap) then some (cs.dropWhile isGap) else none

/-- The rest of a string over several lines; `escapes` tells whether a backslash is special. -/
def linesBody (quote : Char) (escapes : Bool) (out : List Char) : (fuel : Nat) → Reader String
  | 0, _ => none
  | _, [] => none
  | fuel + 1, c :: cs =>
      if startsWith [quote, quote, quote] (c :: cs) then closing quote out (c :: cs)
      else if c == '\r' then
        match cs with
        | '\n' :: rest => linesBody quote escapes ('\n' :: '\r' :: out) fuel rest
        | _ => none
      else if isForbidden c then none
      else if escapes && c == '\\' then
        if endsLine cs then
          match continuation? cs with
          | some rest => linesBody quote escapes out fuel rest
          | none => none
        else
          match escape? cs with
          | some (x, n) => linesBody quote escapes (x :: out) fuel (cs.drop n)
          | none => none
      else linesBody quote escapes (c :: out) fuel cs

/-- A line end right behind the opening quotes does not count. -/
def skipFirstLineEnd : List Char → List Char
  | '\n' :: cs => cs
  | '\r' :: '\n' :: cs => cs
  | cs => cs

/-- A string on one line, with the quote already seen. -/
def quotedLine (quote : Char) (cs : List Char) : Option (String × List Char) :=
  if quote == '"' then basicBody [] (cs.length + 1) cs else literalBody [] cs

def string (quote : Char) (cs : List Char) : Option (String × List Char) :=
  if startsWith [quote, quote, quote] cs then
    let body := skipFirstLineEnd (cs.drop 3)
    linesBody quote (quote == '"') [] (body.length + 1) body
  else quotedLine quote (cs.drop 1)

/-- Whether each underscore stands between two digits; `digit` tells whether the last character was
one. -/
def underscoresInside (digit : Bool) : List Char → Bool
  | [] => digit
  | c :: cs => if c == '_' then digit && underscoresInside false cs else underscoresInside true cs

/-- The integer that digits stand for, a machine word. -/
def integerOf? (base : Nat) (sign : List Char) (digits : List Char) : Option Int :=
  if !underscoresInside false digits then none
  else
    match Text.parseInteger (.fixed base) 64 (sign ++ digits.filter (· != '_')) with
    | .ok n => some n
    | .error _ => none

def isDigit (c : Char) : Bool :=
  '0' ≤ c && c ≤ '9'

/-- A decimal numeral has no zero in front. -/
def decimal? (cs : List Char) : Option Int :=
  let (sign, digits) := match cs with
    | '+' :: ds => (['+'], ds)
    | '-' :: ds => (['-'], ds)
    | ds => ([], ds)
  match digits.filter (· != '_') with
  | '0' :: _ :: _ => none
  | _ => integerOf? 10 sign digits

def baseOf? (mark : Char) : Option Nat :=
  if mark == 'x' then some 16 else if mark == 'o' then some 8 else if mark == 'b' then some 2 else none

def numeral? : List Char → Option Int
  | '0' :: mark :: c :: cs =>
      match baseOf? mark with
      | some base => integerOf? base [] (c :: cs)
      | none => decimal? ('0' :: mark :: c :: cs)
  | cs => decimal? cs

def standsIn (base : Nat) (c : Char) : Bool :=
  c == '_' ||
    match Text.hexDigit? c with
    | some d => d < base
    | none => false

end Dynarec.Toml
