import Dynarec.Text.Hex

/-!
# Guest registers

Register numbers of the guest: 32 general registers, `hi`, `lo`, the program counter and 32 system
registers. Every register has a name; a general register can also be written by its number, with or
without an `r`.
-/

namespace Dynarec.Guest

namespace Register

def hi : Nat := 32
def lo : Nat := 33
def pc : Nat := 34

def system (n : Nat) : Nat := 35 + n

def count : Nat := 67

/-- Numbers of the system registers that exceptions use. -/
def status : Nat := 12
def cause : Nat := 13
def epc : Nat := 14
def errorEpc : Nat := 30

def generalNames : List String :=
  ["zero", "at", "v0", "v1", "a0", "a1", "a2", "a3",
    "t0", "t1", "t2", "t3", "t4", "t5", "t6", "t7",
    "s0", "s1", "s2", "s3", "s4", "s5", "s6", "s7",
    "t8", "t9", "k0", "k1", "gp", "sp", "fp", "ra"]

def systemNames : List String :=
  ["index", "random", "entrylo0", "entrylo1", "context", "pagemask", "wired", "cp0r7",
    "badvaddr", "count", "entryhi", "compare", "status", "cause", "epc", "prid",
    "config", "lladdr", "watchlo", "watchhi", "xcontext", "cp0r21", "cp0r22", "cp0r23",
    "cp0r24", "cp0r25", "parityerror", "cacheerror", "taglo", "taghi", "errorepc", "cp0r31"]

def names : List String :=
  generalNames ++ ["hi", "lo", "pc"] ++ systemNames

/-- The name of a register; a number past the last register is written behind an `r`. -/
def name (id : Nat) : String :=
  match names[id]? with
  | some n => n
  | none => "r" ++ toString id

/-- The number of the general register a numeral names. Only the plain decimal form counts. -/
def general? (s : String) : Option Nat :=
  (List.range 32).find? fun n => toString n == s

/-- Resolves a name such as `v0`, `r2`, `$2`, `hi` or `status`. -/
def ofName? (s : String) : Option Nat :=
  let bare := match s.toList with
    | '$' :: cs => cs
    | cs => cs
  let numeral := match bare with
    | 'r' :: cs => cs
    | cs => cs
  match general? (String.ofList numeral) with
  | some n => some n
  | none => names.findIdx? fun n => n == String.ofList bare

end Register

end Dynarec.Guest
