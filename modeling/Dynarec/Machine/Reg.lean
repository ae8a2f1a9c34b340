/-!
# Machine registers

The sixteen general registers of x86-64, their numbers, their names at each operand size, and their
roles in the System V calling convention.
-/

namespace Dynarec.Machine

inductive Reg where
  | rax | rcx | rdx | rbx | rsp | rbp | rsi | rdi | r8 | r9 | r10 | r11 | r12 | r13 | r14 | r15
deriving DecidableEq, Inhabited

inductive Size where
  | byte | word | dword | qword
deriving DecidableEq, Inhabited

namespace Size

def bytes : Size → Nat
  | byte => 1
  | word => 2
  | dword => 4
  | qword => 8

def ofBytes? (n : Int) : Option Size :=
  if n = 1 then some byte
  else if n = 2 then some word
  else if n = 4 then some dword
  else if n = 8 then some qword
  else none

end Size

namespace Reg

def all : List Reg :=
  [rax, rcx, rdx, rbx, rsp, rbp, rsi, rdi, r8, r9, r10, r11, r12, r13, r14, r15]

def index : Reg → Nat
  | rax => 0
  | rcx => 1
  | rdx => 2
  | rbx => 3
  | rsp => 4
  | rbp => 5
  | rsi => 6
  | rdi => 7
  | r8 => 8
  | r9 => 9
  | r10 => 10
  | r11 => 11
  | r12 => 12
  | r13 => 13
  | r14 => 14
  | r15 => 15

def ofIndex (n : Nat) : Reg :=
  (all[n % 16]?).getD rax

@[simp] theorem ofIndex_index (r : Reg) : ofIndex r.index = r := by
  cases r <;> rfl

def name : Reg → String
  | rax => "rax"
  | rcx => "rcx"
  | rdx => "rdx"
  | rbx => "rbx"
  | rsp => "rsp"
  | rbp => "rbp"
  | rsi => "rsi"
  | rdi => "rdi"
  | r8 => "r8"
  | r9 => "r9"
  | r10 => "r10"
  | r11 => "r11"
  | r12 => "r12"
  | r13 => "r13"
  | r14 => "r14"
  | r15 => "r15"

def ofName? (s : String) : Option Reg :=
  all.find? fun r => r.name == s

/-- The two letters that the names of the first eight registers share. -/
def stem : Reg → String
  | rax => "ax"
  | rcx => "cx"
  | rdx => "dx"
  | rbx => "bx"
  | rsp => "sp"
  | rbp => "bp"
  | rsi => "si"
  | rdi => "di"
  | r => r.name

def byteName : Reg → String
  | rax => "al"
  | rcx => "cl"
  | rdx => "dl"
  | rbx => "bl"
  | rsp => "spl"
  | rbp => "bpl"
  | rsi => "sil"
  | rdi => "dil"
  | r => r.name ++ "b"

def isExtended (r : Reg) : Bool :=
  8 ≤ r.index

/-- The name of the part of a register that an operand of some size takes. -/
def sizedName (r : Reg) : Size → String
  | .qword => r.name
  | .dword => if r.isExtended then r.name ++ "d" else "e" ++ r.stem
  | .word => if r.isExtended then r.name ++ "w" else r.stem
  | .byte => r.byteName

def low (r : Reg) : UInt8 :=
  (r.index % 8).toUInt8

/-- Whether the low byte has a name of its own only behind a REX prefix. -/
def needsRexByte (r : Reg) : Bool :=
  4 ≤ r.index && r.index < 8

/-- The registers that carry the first arguments of a call. -/
def arguments : List Reg :=
  [rdi, rsi, rdx, rcx, r8, r9]

/-- The registers a function saves besides the frame pointer. -/
def saved : List Reg :=
  [rbx, r12, r13, r14, r15]

/-- Whether a call leaves the register as it is. -/
def survivesCall (r : Reg) : Bool :=
  r == rbp || r == rsp || saved.contains r

end Reg

end Dynarec.Machine
