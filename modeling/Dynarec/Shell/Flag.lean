import Dynarec.Text.Cut
import Dynarec.Text.Numeral

/-!
# Flags

Flags change the options of a command. They may stand anywhere among the arguments: `--name value`,
`--name=value`, and for those with a letter `-l value`, `-lvalue` and `-l=value`. A switch takes a value
only behind `=`. What follows `--` is no flag.
-/

namespace Dynarec.Shell

structure Options where
  config : String := ""
  log : String := ""
  debug : String := ""
  endpoint : String := ""
  /-- Zero leaves the width to the settings. -/
  width : Int := 0
  addr : UInt64 := 0x1000
  memory : Int := 65536
  registers : List String := []
  showsHomes : Bool := false
  isNative : Bool := true
  isTracing : Bool := false
  wantsHelp : Bool := false
  wantsVersion : Bool := false
  given : List String := []

inductive FlagKind where
  | text
  | list
  | integer
  | word
  | switch
deriving DecidableEq

structure Flag where
  name : String
  letter : Option Char := none
  kind : FlagKind
  purpose : String
  /-- The default, if it is worth telling. -/
  preset : Option String := none
  /-- Takes over a value, or says what is wrong with it. -/
  put : Options → String → Except String Options

inductive FlagError where
  | malformed (arg : String)
  | unknown (name : String)
  | unknownLetter (letter : Char) (letters : String)
  | missing (arg : String)
  | missingAfter (letter : Char) (letters : String)
  | invalid (value : String) (name : String) (reason : String)
deriving DecidableEq

namespace FlagError

def quoteChar (c : Char) : String :=
  let inner := if c == '"' then [c] else if c == '\'' then ['\\', c] else Text.escapeChar c
  "'" ++ String.ofList inner ++ "'"

def text : FlagError → String
  | malformed arg => "bad flag syntax: " ++ arg
  | unknown name => "unknown flag: --" ++ name
  | unknownLetter c cs => "unknown shorthand flag: " ++ quoteChar c ++ " in -" ++ cs
  | missing arg => "flag needs an argument: " ++ arg
  | missingAfter c cs => "flag needs an argument: " ++ quoteChar c ++ " in -" ++ cs
  | invalid value name reason =>
      "invalid argument " ++ Text.quote value ++ " for " ++ Text.quote name ++ " flag: " ++ reason

end FlagError

namespace Flag

def readSwitch (s : String) : Except String Bool :=
  if ["1", "t", "T", "TRUE", "true", "True"].contains s then .ok true
  else if ["0", "f", "F", "FALSE", "false", "False"].contains s then .ok false
  else .error (Text.NumeralError.text "ParseBool" s .malformed)

def ofText (name purpose : String) (letter : Option Char) (change : Options → String → Options) : Flag :=
  { name, letter, kind := .text, purpose, put := fun o s => .ok (change o s) }

def ofList (name purpose : String) (change : Options → String → Options) : Flag :=
  { name, kind := .list, purpose, put := fun o s => .ok (change o s) }

def ofInteger (name purpose : String) (preset : Option String) (change : Options → Int → Options) : Flag :=
  { name, kind := .integer, purpose, preset
    put := fun o s => (Text.readInteger .spelled 64 s).map (change o) }

def ofWord (name purpose : String) (preset : Option String) (change : Options → UInt64 → Options) : Flag :=
  { name, kind := .word, purpose, preset
    put := fun o s => (Text.readNatural .spelled 64 s).map fun n => change o n.toUInt64 }

def ofSwitch (name purpose : String) (letter : Option Char) (preset : Option String)
    (change : Options → Bool → Options) : Flag :=
  { name, letter, kind := .switch, purpose, preset, put := fun o s => (readSwitch s).map (change o) }

def label (f : Flag) : String :=
  match f.letter with
  | some c => "-" ++ c.toString ++ ", --" ++ f.name
  | none => "--" ++ f.name

def set (f : Flag) (o : Options) (value : String) : Except FlagError Options := do
  let o ← (f.put o value).mapError (.invalid value f.label)
  return { o with given := f.name :: o.given }

inductive Reading where
  | done (o : Options)
  /-- The value of the flag is the next argument; without one there is an error. -/
  | pending (f : Flag) (o : Options) (otherwise : FlagError)

/-- Reads `--name` or `--name=value`, given without the dashes. -/
def readLong (flags : List Flag) (o : Options) (arg : List Char) : Except FlagError Reading :=
  let whole := "--" ++ String.ofList arg
  if arg.head? == some '-' || arg.head? == some '=' then .error (.malformed whole)
  else
    let (name, value) := match Text.cut? '=' arg with
      | some (name, value) => (String.ofList name, some (String.ofList value))
      | none => (String.ofList arg, none)
    match flags.find? (·.name == name), value with
    | none, _ => .error (.unknown name)
    | some f, some value => (f.set o value).map .done
    | some f, none =>
        if f.kind == .switch then (f.set o "true").map .done
        else .ok (.pending f o (.missing whole))

/-- A letter as messages show it: of a character outside ASCII, the first byte of its encoding. -/
def shownLetter (c : Char) : Char :=
  match c.toString.toUTF8.toList with
  | b :: _ => Char.ofNat b.toNat
  | [] => c

/-- Reads the letters behind a single dash. A flag that takes a value takes all that follows its
letter. What starts with `test.` is meant for a test runner, and is passed over. -/
def readLetters (flags : List Flag) (o : Options) : List Char → Except FlagError Reading
  | [] => .ok (.done o)
  | c :: cs =>
      if "test.".toList.isPrefixOf (c :: cs) then .ok (.done o)
      else
        match flags.find? (·.letter == some c) with
        | none => .error (.unknownLetter (shownLetter c) (String.ofList (c :: cs)))
        | some f =>
            match cs with
            | '=' :: v :: vs => (f.set o (String.ofList (v :: vs))).map .done
            | _ =>
                if f.kind == .switch then do
                  let o ← f.set o "true"
                  readLetters flags o cs
                else if cs.isEmpty then .ok (.pending f o (.missingAfter c c.toString))
                else (f.set o (String.ofList cs)).map .done

def readAll (flags : List Flag) (o : Options) : List String → Except FlagError (Options × List String)
  | [] => .ok (o, [])
  | arg :: rest =>
      let reading := match arg.toList with
        | '-' :: '-' :: cs => some (readLong flags o cs)
        | '-' :: c :: cs => some (readLetters flags o (c :: cs))
        | _ => none
      if arg = "--" then .ok (o, rest)
      else
        match reading with
        | none => (readAll flags o rest).map fun (o, args) => (o, arg :: args)
        | some (.error e) => .error e
        | some (.ok (.done o)) => readAll flags o rest
        | some (.ok (.pending f o otherwise)) =>
            match rest with
            | [] => .error otherwise
            | value :: rest => do
                let o ← f.set o value
                readAll flags o rest

end Flag

end Dynarec.Shell
