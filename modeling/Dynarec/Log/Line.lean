import Dynarec.Log.Level
import Dynarec.Text.Quoted

/-!
# Log lines

A log line is a row of `key=value` pairs: the level, the message, and whatever else was given. A key or
value is quoted when it is empty or when it would not read back as one word.
-/

namespace Dynarec.Log

inductive Arg where
  | text (s : String)
  | number (n : Int)
  | flag (b : Bool)
  | nothing
deriving DecidableEq, Inhabited

namespace Arg

def plain : Arg → String
  | text s => s
  | number n => toString n
  | flag b => toString b
  | nothing => "<nil>"

def kind : Arg → String
  | text _ => "String"
  | number _ => "Int64"
  | flag _ => "Bool"
  | nothing => "Any"

end Arg

abbrev Attr := String × Arg

def badKey : String := "!BADKEY"

/-- Pairs keys and values. Where a key is expected and no text stands, or a text stands last, the bad key
takes it. -/
def attrs : List Arg → List Attr
  | [] => []
  | [.text s] => [(badKey, .text s)]
  | .text k :: x :: rest => (k, x) :: attrs rest
  | x :: rest => (badKey, x) :: attrs rest

/-- Whether a character makes quotes necessary. Delete is the one control character that does not. -/
def needsQuotes (c : Char) : Bool :=
  if c.toNat < 0x80 then c.toNat < 0x20 || c == ' ' || c == '"' || c == '='
  else c.toNat == 0xfffd || Text.isBlank c || !Text.isPrintable c

def word (s : String) : String :=
  if s.isEmpty || s.toList.any needsQuotes then Text.quote s else s

def colour (l : Level) : String :=
  if Level.crit ≤ l then "\x1b[35m"
  else if Level.error ≤ l then "\x1b[31m"
  else if Level.warn ≤ l then "\x1b[33m"
  else if Level.info ≤ l then "\x1b[32m"
  else "\x1b[36m"

def levelText (coloured : Bool) (l : Level) : String :=
  if coloured then colour l ++ l.aligned ++ "\x1b[0m" else l.aligned

def pairText (key value : String) : String :=
  word key ++ "=" ++ word value

/-- One pair. The key `level` always stands for a level, and whatever is given with it counts as
`info`; the key `time` accepts no other value than a time, and there are none. A pair without key and
value is left out. -/
def attrText (coloured : Bool) : Attr → Except String (Option String)
  | ("time", x) => .error ("Value kind is " ++ x.kind ++ ", not Time")
  | ("level", _) => .ok (some (pairText "level" (levelText coloured .info)))
  | ("", .nothing) => .ok none
  | (k, x) => .ok (some (pairText k x.plain))

def attrTexts (coloured : Bool) : List Attr → Except String (List String)
  | [] => .ok []
  | a :: as => do
      let t ← attrText coloured a
      let ts ← attrTexts coloured as
      return t.toList ++ ts

/-- A whole line; `fixed` are the pairs that every line of a logger has. -/
def lineText (coloured : Bool) (level : Level) (message : String) (fixed : List String)
    (as : List Attr) : Except String String := do
  let given ← attrTexts coloured as
  let front := [pairText "level" (levelText coloured level), pairText "msg" message]
  return " ".intercalate (front ++ fixed ++ given) ++ "\n"

end Dynarec.Log
