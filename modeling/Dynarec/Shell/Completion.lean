import Dynarec.Shell.Command

/-!
# Completion of command lines

A hidden command lists the words that can stand in place of the last word of a command line: commands at
the start, flags behind a dash. A directive tells the caller whether names of files may stand there too.
-/

namespace Dynarec.Shell

inductive Directive where
  | anything
  | noFiles
deriving DecidableEq

namespace Directive

def code : Directive → String
  | anything => "0"
  | noFiles => "4"

def name : Directive → String
  | anything => "ShellCompDirectiveDefault"
  | noFiles => "ShellCompDirectiveNoFileComp"

end Directive

structure Completion where
  choices : List (String × String) := []
  directive : Directive := .anything

namespace Completion

/-- What is printed: a word on each line, and the directive. -/
def text (describes : Bool) (c : Completion) : String :=
  String.join (c.choices.map fun (word, purpose) =>
    (if describes then word ++ "\t" ++ purpose else word) ++ "\n") ++
    ":" ++ c.directive.code ++ "\nCompletion ended with directive: " ++ c.directive.name ++ "\n"

end Completion

namespace Command

inductive Purpose where
  | value
  /-- The value of a flag that the command does not have. -/
  | stray
  | word
deriving DecidableEq

structure Place where
  purpose : Purpose
  args : List String
  typed : List Char

def flagOf? (c : Command) (name : String) : Option Flag :=
  match name.toList with
  | [letter] => c.flags.find? (·.letter == some letter)
  | _ => c.flags.find? (·.name == name)

/-- The name of the flag that an argument ends with; of letters the last one counts. -/
def flagName (arg : List Char) : String :=
  match arg with
  | '-' :: '-' :: name => String.ofList name
  | letters => String.ofList (letters.drop (letters.length - 1))

/-- Whether an argument is a flag, whose value may be the next argument. -/
def opensFlag (arg : List Char) : Bool :=
  match arg with
  | '-' :: '-' :: rest => !rest.isEmpty && !arg.contains '='
  | '-' :: rest => !rest.isEmpty && !arg.contains '='
  | _ => false

/-- The place of a word behind arguments, the last of which may be a flag that takes it for its value. A
switch takes none, unless the word stood behind `=`. -/
def placeBehind (c : Command) (args : List String) (typed word : List Char) : Place :=
  match args.getLast? with
  | none => ⟨.word, args, word⟩
  | some arg =>
      if !opensFlag arg.toList then ⟨.word, args, word⟩
      else
        match c.flagOf? (flagName arg.toList) with
        | none => ⟨.stray, args, typed⟩
        | some f =>
            if f.kind == .switch && typed == word then ⟨.word, args, word⟩
            else ⟨.value, args.dropLast, word⟩

/-- The place of a last word. What stands behind `=` is the word, if a flag or nothing is in front. -/
def placeOf (c : Command) (args : List String) (typed : List Char) : Place :=
  match typed, Text.cut? '=' typed with
  | '-' :: _, none => ⟨.word, args, typed⟩
  | '-' :: _, some (front, word) =>
      if front = ['-', '-'] then c.placeBehind args typed word
      else if (c.flagOf? (flagName front)).isSome then ⟨.value, args, word⟩
      else ⟨.stray, args, typed⟩
  | _, _ => c.placeBehind args typed typed

/-- The flags that begin as typed; one that was given already is left out, unless it can be repeated. -/
def flagChoices (c : Command) (given : List String) (typed : List Char) : List (String × String) :=
  let sorted (flags : List Flag) := flags.mergeSort fun a b => a.name ≤ b.name
  let flags := if c = top then sorted c.flags else sorted sharedFlags ++ sorted c.ownFlags
  (flags.filter fun f => f.kind == .list || !given.contains f.name).flatMap fun f =>
    let spelled := ("--" ++ f.name) :: (f.letter.map fun l => "-" ++ l.toString).toList
    (spelled.filter fun s => typed.isPrefixOf s.toList).map fun s => (s, f.purpose)

def commandChoices (typed : List Char) : List (String × String) :=
  (listed.filter fun c => typed.isPrefixOf c.name.toList).map fun c => (c.name, c.purpose)

def wordChoices (c : Command) (args : List String) (typed : List Char) : Completion :=
  match c, args with
  | top, [] => { choices := commandChoices typed, directive := .noFiles }
  | help, args =>
      match find true args with
      | .ok (top, _) => { choices := commandChoices typed, directive := .noFiles }
      | _ => { directive := .noFiles }
  | _, _ => {}

/-- The words that can stand behind `--` as if for the value of a flag: commands only where help wants
them. -/
def valueChoices (c : Command) (args : List String) (typed : List Char) : Completion :=
  if c = help then c.wordChoices args typed else {}

def startsFlag (typed : List Char) : Bool :=
  typed.head? == some '-' && !typed.contains '='

/-- Completes the last word behind arguments of a command. Flags are known up to `--`, and none is read
by the command that does the completing. -/
def completion (c : Command) (args : List String) (typed : List Char) : Completion :=
  match c with
  | complete _ =>
      if startsFlag typed then { choices := c.flagChoices [] typed, directive := .noFiles } else {}
  | c =>
      let place := c.placeOf args typed
      match Flag.readAll c.flags {} place.args, Flag.readAll c.flags {} (place.args ++ ["--"]) with
      | .ok (o, words), .ok (_, more) =>
          let knowsFlags := more.length ≤ words.length
          if place.purpose = .stray ∧ knowsFlags then {}
          else if o.given.contains "help" || o.given.contains "version" then { directive := .noFiles }
          else if place.purpose = .value then
            if knowsFlags then {} else c.valueChoices words place.typed
          else if startsFlag place.typed && knowsFlags then
            { choices := c.flagChoices o.given place.typed, directive := .noFiles }
          else c.wordChoices words place.typed
      | _, _ => {}

/-- What is printed of the completions of the last argument. A command line that asks for completions
itself decides whether they are described. -/
def completionText (describes : Bool) (args : List String) : String :=
  match args.getLast?, find true args.dropLast with
  | some typed, .ok (c, rest) =>
      let describes := match c with
        | complete d => d
        | _ => describes
      (c.completion rest typed.toList).text describes
  | _, _ => ({} : Completion).text describes

end Command

end Dynarec.Shell
