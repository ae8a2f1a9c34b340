import Dynarec.Guest.Word

/-!
# Guest mnemonics

The instructions that can be lifted, how each transfers control, and the decoding of words to
mnemonics. A word that stands for no such instruction decodes to nothing.
-/

namespace Dynarec.Guest

inductive Mnemonic where
  | sll | srl | sra | sllv | srlv | srav | jr | jalr | syscall | brk | sync | mfhi | mthi | mflo
  | mtlo | dsllv | dsrlv | dsrav | mult | multu | div | divu | ddiv | ddivu | add | addu | sub
  | subu | and | or | xor | nor | slt | sltu | dadd | daddu | dsub | dsubu | dsll | dsrl | dsra
  | dsll32 | dsrl32 | dsra32 | bltz | bgez | bltzl | bgezl | bltzal | bgezal | bltzall | bgezall
  | j | jal | beq | bne | blez | bgtz | addi | addiu | slti | sltiu | andi | ori | xori | lui
  | beql | bnel | blezl | bgtzl | daddi | daddiu | lb | lh | lw | lbu | lhu | lwu | sb | sh | sw
  | cache | ld | sd | mfc0 | dmfc0 | eret
deriving DecidableEq, Inhabited

inductive Test where
  | eq | ne | ltz | gez | lez | gtz
deriving DecidableEq

inductive Control where
  | none
  | branch (test : Test) (likely link : Bool)
  | jump (link : Bool)
  | jumpRegister (link : Bool)
  | exceptionReturn
  | exception (cause : UInt64)
deriving DecidableEq

namespace Mnemonic

def name : Mnemonic → String
  | sll => "sll"
  | srl => "srl"
  | sra => "sra"
  | sllv => "sllv"
  | srlv => "srlv"
  | srav => "srav"
  | jr => "jr"
  | jalr => "jalr"
  | syscall => "syscall"
  | brk => "break"
  | sync => "sync"
  | mfhi => "mfhi"
  | mthi => "mthi"
  | mflo => "mflo"
  | mtlo => "mtlo"
  | dsllv => "dsllv"
  | dsrlv => "dsrlv"
  | dsrav => "dsrav"
  | mult => "mult"
  | multu => "multu"
  | div => "div"
  | divu => "divu"
  | ddiv => "ddiv"
  | ddivu => "ddivu"
  | add => "add"
  | addu => "addu"
  | sub => "sub"
  | subu => "subu"
  | and => "and"
  | or => "or"
  | xor => "xor"
  | nor => "nor"
  | slt => "slt"
  | sltu => "sltu"
  | dadd => "dadd"
  | daddu => "daddu"
  | dsub => "dsub"
  | dsubu => "dsubu"
  | dsll => "dsll"
  | dsrl => "dsrl"
  | dsra => "dsra"
  | dsll32 => "dsll32"
  | dsrl32 => "dsrl32"
  | dsra32 => "dsra32"
  | bltz => "bltz"
  | bgez => "bgez"
  | bltzl => "bltzl"
  | bgezl => "bgezl"
  | bltzal => "bltzal"
  | bgezal => "bgezal"
  | bltzall => "bltzall"
  | bgezall => "bgezall"
  | j => "j"
  | jal => "jal"
  | beq => "beq"
  | bne => "bne"
  | blez => "blez"
  | bgtz => "bgtz"
  | addi => "addi"
  | addiu => "addiu"
  | slti => "slti"
  | sltiu => "sltiu"
  | andi => "andi"
  | ori => "ori"
  | xori => "xori"
  | lui => "lui"
  | beql => "beql"
  | bnel => "bnel"
  | blezl => "blezl"
  | bgtzl => "bgtzl"
  | daddi => "daddi"
  | daddiu => "daddiu"
  | lb => "lb"
  | lh => "lh"
  | lw => "lw"
  | lbu => "lbu"
  | lhu => "lhu"
  | lwu => "lwu"
  | sb => "sb"
  | sh => "sh"
  | sw => "sw"
  | cache => "cache"
  | ld => "ld"
  | sd => "sd"
  | mfc0 => "mfc0"
  | dmfc0 => "dmfc0"
  | eret => "eret"

/-- The cause codes of the two instructions that raise an exception. -/
def syscallCause : UInt64 := 8
def breakCause : UInt64 := 9

def control : Mnemonic → Control
  | bltz => .branch .ltz false false
  | bgez => .branch .gez false false
  | bltzl => .branch .ltz true false
  | bgezl => .branch .gez true false
  | bltzal => .branch .ltz false true
  | bgezal => .branch .gez false true
  | bltzall => .branch .ltz true true
  | bgezall => .branch .gez true true
  | beq => .branch .eq false false
  | bne => .branch .ne false false
  | blez => .branch .lez false false
  | bgtz => .branch .gtz false false
  | beql => .branch .eq true false
  | bnel => .branch .ne true false
  | blezl => .branch .lez true false
  | bgtzl => .branch .gtz true false
  | j => .jump false
  | jal => .jump true
  | jr => .jumpRegister false
  | jalr => .jumpRegister true
  | eret => .exceptionReturn
  | syscall => .exception syscallCause
  | brk => .exception breakCause
  | _ => .none

def is64 : Mnemonic → Bool
  | dsllv | dsrlv | dsrav | ddiv | ddivu | dadd | daddu | dsub | dsubu | dsll | dsrl | dsra
  | dsll32 | dsrl32 | dsra32 | daddi | daddiu | lwu | ld | sd | dmfc0 => true
  | _ => false

/-- Opcode 0, by function field. -/
def ofFunct? : Nat → Option Mnemonic
  | 0 => some sll
  | 2 => some srl
  | 3 => some sra
  | 4 => some sllv
  | 6 => some srlv
  | 7 => some srav
  | 8 => some jr
  | 9 => some jalr
  | 12 => some syscall
  | 13 => some brk
  | 15 => some sync
  | 16 => some mfhi
  | 17 => some mthi
  | 18 => some mflo
  | 19 => some mtlo
  | 20 => some dsllv
  | 22 => some dsrlv
  | 23 => some dsrav
  | 24 => some mult
  | 25 => some multu
  | 26 => some div
  | 27 => some divu
  | 30 => some ddiv
  | 31 => some ddivu
  | 32 => some add
  | 33 => some addu
  | 34 => some sub
  | 35 => some subu
  | 36 => some and
  | 37 => some or
  | 38 => some xor
  | 39 => some nor
  | 42 => some slt
  | 43 => some sltu
  | 44 => some dadd
  | 45 => some daddu
  | 46 => some dsub
  | 47 => some dsubu
  | 56 => some dsll
  | 58 => some dsrl
  | 59 => some dsra
  | 60 => some dsll32
  | 62 => some dsrl32
  | 63 => some dsra32
  | _ => Option.none

/-- Opcode 1, by the second register field. -/
def ofRegimm? : Nat → Option Mnemonic
  | 0 => some bltz
  | 1 => some bgez
  | 2 => some bltzl
  | 3 => some bgezl
  | 16 => some bltzal
  | 17 => some bgezal
  | 18 => some bltzall
  | 19 => some bgezall
  | _ => Option.none

/-- Opcode 16, by the first register field and the function field. -/
def ofCop0? : Nat → Nat → Option Mnemonic
  | 0, _ => some mfc0
  | 1, _ => some dmfc0
  | 16, 24 => some eret
  | _, _ => Option.none

/-- Every other opcode. -/
def ofOpcode? : Nat → Option Mnemonic
  | 2 => some j
  | 3 => some jal
  | 4 => some beq
  | 5 => some bne
  | 6 => some blez
  | 7 => some bgtz
  | 8 => some addi
  | 9 => some addiu
  | 10 => some slti
  | 11 => some sltiu
  | 12 => some andi
  | 13 => some ori
  | 14 => some xori
  | 15 => some lui
  | 20 => some beql
  | 21 => some bnel
  | 22 => some blezl
  | 23 => some bgtzl
  | 24 => some daddi
  | 25 => some daddiu
  | 32 => some lb
  | 33 => some lh
  | 35 => some lw
  | 36 => some lbu
  | 37 => some lhu
  | 39 => some lwu
  | 40 => some sb
  | 41 => some sh
  | 43 => some sw
  | 47 => some cache
  | 55 => some ld
  | 63 => some sd
  | _ => Option.none

end Mnemonic

namespace Word

def decode (w : Word) : Option Mnemonic :=
  match w.opcode with
  | 0 => Mnemonic.ofFunct? w.funct
  | 1 => Mnemonic.ofRegimm? w.rt
  | 16 => Mnemonic.ofCop0? w.rs w.funct
  | op => Mnemonic.ofOpcode? op

end Word

end Dynarec.Guest
