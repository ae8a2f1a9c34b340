import Dynarec.Toml.Moment

/-!
# TOML documents

A document is a list of statements: a key with a value, or the head of a table or of an entry in a list
of tables. Statements are read one by one, so what stands in front of a mistake is still read. Numerals
and points in time are kept as they are spelled, since only a value that is used has to make sense.
-/

namespace Dynarec.Toml

structure KeyPart where
  name : String
  /-- Whether it is spelled with a backslash. -/
  isEscaped : Bool := false
deriving DecidableEq, Inhabited

abbrev Key := List KeyPart

abbrev Path := List String

def pathOf (k : Key) : Path :=
  k.map KeyPart.name

/-- Numbers with a fraction are only told apart from the rest. -/
inductive Value where
  | text (s : String)
  | integer (spelled : List Char)
  | boolean (b : Bool)
  | fraction
  | moment (m : Moment)
  | list (items : List Value)
  | table (rows : List (Key × Value))
deriving Inhabited

inductive Statement where
  | pair (key : Key) (value : Value)
  | table (key : Key)
  | tables (key : Key)
deriving Inhabited

def isBareKeyChar (c : Char) : Bool :=
  ('a' ≤ c && c ≤ 'z') || ('A' ≤ c && c ≤ 'Z') || isDigit c || c == '-' || c == '_'

def keyPart : Reader KeyPart
  | [] => none
  | c :: cs =>
      if c == '"' || c == '\'' then do
        let (name, rest) ← quotedLine c cs
        return (⟨name, c == '"' && (cs.take (cs.length - rest.length)).contains '\\'⟩, rest)
      else if isBareKeyChar c then
        some (⟨String.ofList ((c :: cs).takeWhile isBareKeyChar), false⟩,
          (c :: cs).dropWhile isBareKeyChar)
      else none

def key : (fuel : Nat) → Reader Key
  | 0, _ => none
  | fuel + 1, cs => do
      let (k, rest) ← keyPart cs
      match skipBlanks rest with
      | '.' :: rest =>
          let (ks, rest) ← key fuel (skipBlanks rest)
          return (k :: ks, rest)
      | rest => return ([k], rest)

def comment : List Char → Option (List Char)
  | [] => some []
  | c :: cs =>
      if c == '\n' then some (c :: cs)
      else if c == '\r' then
        match cs with
        | '\n' :: _ => some cs
        | _ => none
      else if isForbidden c then none
      else comment cs

def lineEnd : List Char → Option (List Char)
  | '\n' :: cs => some cs
  | '\r' :: '\n' :: cs => some cs
  | _ => none

def skipAll : (fuel : Nat) → List Char → Option (List Char)
  | 0, _ => none
  | fuel + 1, cs =>
      match skipBlanks cs with
      | '#' :: rest =>
          match comment rest with
          | some rest => skipAll fuel rest
          | none => none
      | '\n' :: rest => skipAll fuel rest
      | '\r' :: rest =>
          match rest with
          | '\n' :: rest => skipAll fuel rest
          | _ => none
      | rest => some rest

/-- The characters of a decimal numeral with or without a fraction. -/
def isNumberChar (c : Char) : Bool :=
  isDigit c || c == '+' || c == '-' || c == '_' || c == '.' || c == 'e' || c == 'E'

def decimalNumber (cs : List Char) : Option (Value × List Char) :=
  let digits := cs.takeWhile isNumberChar
  let rest := cs.dropWhile isNumberChar
  if startsWith ['i', 'n', 'f'] rest || startsWith ['n', 'a', 'n'] rest then
    some (.fraction, rest.drop 3)
  else if startsWith ['i'] rest || startsWith ['n'] rest then none
  else if digits.isEmpty then none
  else if digits.any fun c => c == '.' || c == 'e' || c == 'E' then some (.fraction, rest)
  else some (.integer digits, rest)

def number (cs : List Char) : Option (Value × List Char) :=
  match cs with
  | '0' :: mark :: c :: rest =>
      if mark == '.' || mark == 'e' || mark == 'E' then decimalNumber cs
      else
        match baseOf? mark with
        | none => some (.integer ['0'], mark :: c :: rest)
        | some base =>
            some (.integer ('0' :: mark :: (c :: rest).takeWhile (standsIn base)),
              (c :: rest).dropWhile (standsIn base))
  | _ => decimalNumber cs

def scalar (cs : List Char) : Option (Value × List Char) :=
  match cs with
  | [] => none
  | c :: _ =>
      if c == '"' || c == '\'' then (string c cs).map fun (s, rest) => (.text s, rest)
      else if startsWith "true".toList cs then some (.boolean true, cs.drop 4)
      else if startsWith "false".toList cs then some (.boolean false, cs.drop 5)
      else if Moment.starts cs then (Moment.read cs).map fun (m, rest) => (.moment m, rest)
      else number cs

mutual

def value : (fuel : Nat) → Reader Value
  | 0, _ => none
  | fuel + 1, cs =>
      match cs with
      | '[' :: rest => do
          let (items, rest) ← listItems fuel true rest
          return (.list items, rest)
      | '\x7b' :: rest => do
          let (rows, rest) ← tableRows fuel true rest
          return (.table rows, rest)
      | _ => scalar cs

/-- The items of a list up to its end; a comma may stand behind the last. -/
def listItems : (fuel : Nat) → (first : Bool) → Reader (List Value)
  | 0, _, _ => none
  | fuel + 1, first, cs => do
      match ← skipAll (cs.length + 1) cs with
      | ']' :: rest => return ([], rest)
      | rest =>
          let rest ←
            match rest with
            | ',' :: rest => if first then none else skipAll (rest.length + 1) rest
            | rest => if first then some rest else none
          match rest with
          | ']' :: rest => return ([], rest)
          | rest =>
              let (v, rest) ← value fuel rest
              let (vs, rest) ← listItems fuel false rest
              return (v :: vs, rest)

/-- The rows of a table on one line. -/
def tableRows : (fuel : Nat) → (first : Bool) → Reader (List (Key × Value))
  | 0, _, _ => none
  | fuel + 1, first, cs => do
      match skipBlanks cs with
      | '\x7d' :: rest => return ([], rest)
      | rest =>
          let rest ←
            match rest with
            | ',' :: rest => if first then none else some (skipBlanks rest)
            | rest => if first then some rest else none
          let (k, rest) ← key rest.length rest
          match rest with
          | '=' :: rest =>
              let (v, rest) ← value fuel (skipBlanks rest)
              let (rows, rest) ← tableRows fuel false rest
              return ((k, v) :: rows, rest)
          | _ => none

end

def pair (cs : List Char) : Option (Statement × List Char) := do
  let (k, rest) ← key cs.length cs
  match rest with
  | '=' :: rest =>
      let (v, rest) ← value (cs.length + 1) (skipBlanks rest)
      return (.pair k v, rest)
  | _ => none

def head (cs : List Char) : Option (Statement × List Char) := do
  match cs with
  | '[' :: '[' :: rest =>
      let (k, rest) ← key cs.length (skipBlanks rest)
      match rest with
      | ']' :: ']' :: rest => return (.tables k, rest)
      | _ => none
  | '[' :: rest =>
      let (k, rest) ← key cs.length (skipBlanks rest)
      match rest with
      | ']' :: rest => return (.table k, rest)
      | _ => none
  | _ => none

/-- What is left of a line behind its statement. -/
def lineRest (cs : List Char) : Option (List Char) :=
  match skipBlanks cs with
  | '#' :: rest => comment rest
  | rest => some rest

/-- One line, which may hold no statement. -/
def line (cs : List Char) : Option (Option Statement × List Char) :=
  match skipBlanks cs with
  | [] => some (none, [])
  | '#' :: rest => (comment rest).map (none, ·)
  | '\n' :: rest => some (none, '\n' :: rest)
  | '\r' :: rest => some (none, '\r' :: rest)
  | rest => do
      let (s, rest) ← if startsWith ['['] rest then head rest else pair rest
      return (some s, ← lineRest rest)

/-- The statements in front of the first mistake, and whether there is none. -/
def statements : (fuel : Nat) → List Char → List Statement × Bool
  | 0, _ => ([], false)
  | fuel + 1, cs =>
      match line cs with
      | none => ([], false)
      | some (s, rest) =>
          let (more, ok) :=
            if rest.isEmpty then ([], true)
            else
              match lineEnd rest with
              | none => ([], false)
              | some [] => ([], true)
              | some rest => statements fuel rest
          (s.toList ++ more, ok)

def parse (s : String) : List Statement × Bool :=
  statements (s.length + 1) s.toList

end Dynarec.Toml
