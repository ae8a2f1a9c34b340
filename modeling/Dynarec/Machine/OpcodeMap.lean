import Dynarec.Machine.Argument

/-!
# The opcode map

The instructions of 64-bit mode by opcode: all opcodes of one byte, and those of two bytes that do not
work on vectors. Of an instruction only its name and its arguments are read, which is what a listing
shows.
-/

namespace Dynarec.Machine

structure Named where
  name : String
  args : List Arg := []

namespace OpcodeMap

def conditions : List String :=
  ["o", "no", "b", "nb", "z", "nz", "be", "nbe", "s", "ns", "p", "np", "l", "nl", "le", "nle"]

def entry (names : List String) (n : Nat) : String :=
  (names[n]?).getD ""

def chosen (names : List String) (digit : Nat) : Scan String :=
  let s := entry names digit
  if s = "" then Scan.unknown else return s

def bySize (c : Lead) (word dword qword : String) : String :=
  match c.size with
  | .word => word
  | .qword => qword
  | _ => dword

/-- An instruction whose operand byte, if it has one, is read already. -/
def withFields (c : Lead) (opcode : UInt8) (f : Fields) (name : String) (specs : List Spec) :
    Scan Named := do
  let args ← specs.mapM (Spec.read c opcode f)
  return ⟨name, args⟩

def make (c : Lead) (opcode : UInt8) (name : String) (specs : List Spec) : Scan Named := do
  let f ← if specs.any Spec.usesFields then Fields.read c else pure ⟨0, 0, none⟩
  withFields c opcode f name specs

/-- An instruction that the digit in its operand byte chooses. -/
def group (c : Lead) (opcode : UInt8) (names : List String) (specs : List Spec) : Scan Named := do
  let f ← Fields.read c
  withFields c opcode f (← chosen names (f.field % 8)) specs

def aluNames : List String := ["add", "or", "adc", "sbb", "and", "sub", "xor", "cmp"]

def shiftNames : List String := ["rol", "ror", "rcl", "rcr", "shl", "shr", "", "sar"]

def rmOf (opcode : UInt8) : Spec := if opcode &&& 1 = 0 then .rm .byte else .rmFull

def fieldOf (opcode : UInt8) : Spec := if opcode &&& 1 = 0 then .field .byte else .fieldFull

def accumulatorOf (opcode : UInt8) : Spec := if opcode &&& 1 = 0 then .fixed "al" else .accumulator

/-- A register of the two ports instructions, which has four bytes at most. -/
def portOf (c : Lead) (opcode : UInt8) : Spec :=
  .fixed (if opcode &&& 1 = 0 then "al" else if c.size = .word then "ax" else "eax")

def constOf (opcode : UInt8) : Spec := if opcode &&& 1 = 0 then .unsigned8 else .constFull

/-- Arithmetic on two operands, in the six forms that share a row. -/
def arithmetic (c : Lead) (opcode : UInt8) : Scan Named :=
  let name := entry aluNames (opcode >>> 3).toNat
  let form := opcode &&& 7
  if form < 2 then make c opcode name [rmOf opcode, fieldOf opcode]
  else if form < 4 then make c opcode name [fieldOf opcode, rmOf opcode]
  else make c opcode name [accumulatorOf opcode, constOf opcode]

/-- Instructions on strings: a letter for the size, and the places they work on. -/
def onStrings (c : Lead) (opcode : UInt8) (stem : String) (places : List Reg) : Scan Named :=
  let size := if opcode &&& 1 = 0 then Size.byte else c.size
  let letter := match size with | .byte => "b" | .word => "w" | .dword => "d" | .qword => "q"
  let place (r : Reg) : Arg :=
    .place (Arg.sizeWord size.bytes)
      { segment := if r = .rsi then c.segment.getD "" else "", base := r.sizedName c.addressSize }
  return ⟨stem ++ letter, places.map place⟩

/-- Instructions that move strings from and to ports; their arguments are not shown. -/
def onPorts (c : Lead) (opcode : UInt8) (stem : String) : Scan Named :=
  let segment := if stem = "outs" then (c.segment.map fun s => Arg.name (s.dropEnd 1).toString).toList else []
  return ⟨stem ++ (if opcode &&& 1 = 0 then "b" else if c.size = .word then "w" else "d"), segment⟩

def unary (c : Lead) (opcode : UInt8) : Scan Named := do
  let f ← Fields.read c
  if f.field % 8 = 0 then withFields c opcode f "test" [rmOf opcode, constOf opcode]
  else
    let name ← chosen ["", "", "not", "neg", "mul", "imul", "div", "idiv"] (f.field % 8)
    withFields c opcode f name [rmOf opcode]

def indirect (c : Lead) : Scan Named := do
  let f ← Fields.read c
  let far := c.size.bytes + 2
  let use := withFields c 0xff f
  match f.field % 8 with
  | 0 => use "inc" [.rmFull]
  | 1 => use "dec" [.rmFull]
  | 2 => use "call" [.rm .qword]
  | 3 => use "call far" [.mem far]
  | 4 => use "jmp" [.rm .qword]
  | 5 => use "jmp far" [.mem far]
  | 6 => use "push" [.rmStack]
  | _ => Scan.unknown

/-! Floating point. -/

/-- Operations that work on the top of the stack and show it. -/
def showsTop (name : String) : Bool :=
  ["fchs", "fabs", "ftst", "fldpi", "fldl2e", "fldlg2", "f2xm1", "fxam", "fld1", "fldl2t", "fsqrt",
    "frndint", "fcos", "fsin"].contains name

/-- Operations that work on the two topmost registers and show them. -/
def showsTwo (name : String) : Bool :=
  ["fptan", "fsincos", "fucompp", "fcompp", "fyl2x", "fpatan", "fxtract", "fprem1", "fprem", "fyl2xp1",
    "fscale"].contains name

/-- Operations that show the top of the stack behind their argument. -/
def showsTopLast (name : String) : Bool :=
  ["fst", "fstp", "fisttp", "fist", "fistp", "fbstp"].contains name

/-- Operations that show the top of the stack in front of their argument. -/
def showsTopFirst (name : String) : Bool :=
  ["fld", "fxch", "fcom", "fcomp", "fiadd", "fimul", "ficom", "ficomp", "fisubr", "fidiv", "fucom",
    "fucomp", "fild", "fbld", "fadd", "fmul", "fsub", "fsubr", "fisub", "fdiv", "fdivr",
    "fidivr"].contains name

/-- A floating point instruction with the registers it does not name. -/
def floating (name : String) (args : List Arg) : Named :=
  let top := Arg.name "st0"
  match args with
  | [] =>
      if showsTop name then ⟨name, [top]⟩
      else if showsTwo name then ⟨name, [top, .name "st1"]⟩
      else ⟨name, []⟩
  | [a] =>
      if showsTopLast name then ⟨name, [a, top]⟩
      else if showsTopFirst name then ⟨name, [top, a]⟩
      else ⟨name, [a]⟩
  | _ => ⟨name, args⟩

/-- Names and bytes of memory for the eight digits of an opcode from d8 on. -/
def floatMemory (opcode : UInt8) : List (String × Nat) :=
  let arith (stem : String) (n : Nat) :=
    ["add", "mul", "com", "comp", "sub", "subr", "div", "divr"].map fun s => (stem ++ s, n)
  match (opcode &&& 7).toNat with
  | 0 => arith "f" 4
  | 1 => [("fld", 4), ("", 0), ("fst", 4), ("fstp", 4), ("fldenv", 0), ("fldcw", 2), ("fnstenv", 0),
      ("fnstcw", 2)]
  | 2 => arith "fi" 4
  | 3 => [("fild", 4), ("fisttp", 4), ("fist", 4), ("fistp", 4), ("", 0), ("fld", 10), ("", 0), ("fstp", 10)]
  | 4 => arith "f" 8
  | 5 => [("fld", 8), ("fisttp", 8), ("fst", 8), ("fstp", 8), ("frstor", 0), ("", 0), ("fnsave", 0),
      ("fnstsw", 2)]
  | 6 => arith "fi" 2
  | _ => [("fild", 2), ("fisttp", 2), ("fist", 2), ("fistp", 2), ("fbld", 10), ("fild", 8), ("fbstp", 10),
      ("fistp", 8)]

def floatPlain : List (Nat × String) :=
  [(0xd0, "fnop"), (0xe0, "fchs"), (0xe1, "fabs"), (0xe4, "ftst"), (0xe5, "fxam"), (0xe8, "fld1"),
    (0xe9, "fldl2t"), (0xea, "fldl2e"), (0xeb, "fldpi"), (0xec, "fldlg2"), (0xed, "fldln2"),
    (0xee, "fldz"), (0xf0, "f2xm1"), (0xf1, "fyl2x"), (0xf2, "fptan"), (0xf3, "fpatan"),
    (0xf4, "fxtract"), (0xf5, "fprem1"), (0xf6, "fdecstp"), (0xf7, "fincstp"), (0xf8, "fprem"),
    (0xf9, "fyl2xp1"), (0xfa, "fsqrt"), (0xfb, "fsincos"), (0xfc, "frndint"), (0xfd, "fscale"),
    (0xfe, "fsin"), (0xff, "fcos")]

/-- Names for the eight digits of a register form, and whether the register comes first (`some true`),
second (`some false`) or alone (`none`). -/
def floatRegisters (opcode : UInt8) : List (String × Option Bool) :=
  let second (s : String) := (s, some false)
  let first (s : String) := (s, some true)
  let alone (s : String) := (s, none)
  match (opcode &&& 7).toNat with
  | 0 => [second "fadd", second "fmul", alone "fcom", alone "fcomp", second "fsub", second "fsubr",
      second "fdiv", second "fdivr"]
  | 1 => [alone "fld", alone "fxch"]
  | 2 => [second "fcmovb", second "fcmove", second "fcmovbe", second "fcmovu"]
  | 3 => [second "fcmovnb", second "fcmovne", second "fcmovnbe", second "fcmovnu", alone "",
      second "fucomi", second "fcomi"]
  | 4 => [first "fadd", first "fmul", alone "", alone "", first "fsubr", first "fsub", first "fdivr",
      first "fdiv"]
  | 5 => [alone "ffree", alone "", alone "fst", alone "fstp", alone "fucom", alone "fucomp"]
  | 6 => [first "faddp", first "fmulp", alone "", alone "", first "fsubrp", first "fsubp", first "fdivrp",
      first "fdivp"]
  | _ => [alone "", alone "", alone "", alone "", alone "", second "fucomip", second "fcomip"]

/-- The register forms, by the byte behind the opcode. -/
def floatRegister (opcode second : UInt8) : Scan Named :=
  let st := Arg.name ("st" ++ toString (second &&& 7).toNat)
  let top := Arg.name "st0"
  let special : Option String :=
    if opcode = 0xd9 then floatPlain.lookup second.toNat
    else if opcode = 0xda ∧ second = 0xe9 then some "fucompp"
    else if opcode = 0xdb ∧ second = 0xe2 then some "fnclex"
    else if opcode = 0xdb ∧ second = 0xe3 then some "fninit"
    else if opcode = 0xde ∧ second = 0xd9 then some "fcompp"
    else none
  match special, (floatRegisters opcode)[((second >>> 3) &&& 7).toNat]? with
  | some name, _ => return floating name []
  | none, some (name, order) =>
      if opcode = 0xdf ∧ second = 0xe0 then return ⟨"fnstsw", [.name "ax"]⟩
      else if name = "" then Scan.unknown
      else
        match order with
        | some true => return ⟨name, [st, top]⟩
        | some false => return ⟨name, [top, st]⟩
        | none => return floating name [st]
  | none, none => Scan.unknown

def float (c : Lead) (opcode : UInt8) : Scan Named := do
  match ← get with
  | [] => throw .cutOff
  | m :: _ =>
      if m >>> 6 = 3 then floatRegister opcode (← Scan.byte)
      else
        let f ← Fields.read c
        let (name, n) := ((floatMemory opcode)[f.field % 8]?).getD ("", 0)
        if name = "" then Scan.unknown
        else
          let x ← withFields c opcode f name [.mem n]
          return floating x.name x.args

/-! Opcodes of one byte. -/

def plain (c : Lead) : List (Nat × String) :=
  [(0x98, bySize c "cbw" "cwde" "cdqe"), (0x99, bySize c "cwd" "cdq" "cqo"), (0x9b, "fwait"),
    (0x9c, bySize c "pushf" "pushfq" "pushfq"), (0x9d, bySize c "popf" "popfq" "popfq"), (0x9e, "sahf"),
    (0x9f, "lahf"), (0xc3, "ret"), (0xc9, "leave"), (0xcb, "ret far"), (0xcc, "int3"),
    (0xcf, bySize c "iret" "iretd" "iretq"), (0xf1, "int1"), (0xf4, "hlt"), (0xf5, "cmc"), (0xf8, "clc"),
    (0xf9, "stc"), (0xfa, "cli"), (0xfb, "sti"), (0xfc, "cld"), (0xfd, "std")]

def simple (c : Lead) (op : UInt8) : List (Nat × String × List Spec) :=
  [(0x63, "movsxd", [.fieldFull, .rm .dword]), (0x68, "push", [.constFull]),
    (0x69, "imul", [.fieldFull, .rmFull, .constFull]), (0x6a, "push", [.signed8]),
    (0x6b, "imul", [.fieldFull, .rmFull, .signed8]),
    (0x84, "test", [rmOf op, fieldOf op]), (0x85, "test", [rmOf op, fieldOf op]),
    (0x86, "xchg", [rmOf op, fieldOf op]), (0x87, "xchg", [rmOf op, fieldOf op]),
    (0x88, "mov", [rmOf op, fieldOf op]), (0x89, "mov", [rmOf op, fieldOf op]),
    (0x8a, "mov", [fieldOf op, rmOf op]), (0x8b, "mov", [fieldOf op, rmOf op]),
    (0x8c, "mov", [.rmWord, .segment]), (0x8e, "mov", [.segment, .rm .word]),
    (0x8d, "lea", [.fieldFull, .mem 0]),
    (0xa0, "mov", [.fixed "al", .offset 1]), (0xa1, "mov", [.accumulator, .offset c.size.bytes]),
    (0xa2, "mov", [.offset 1, .fixed "al"]), (0xa3, "mov", [.offset c.size.bytes, .accumulator]),
    (0xa8, "test", [.fixed "al", .unsigned8]), (0xa9, "test", [.accumulator, .constFull]),
    (0xc2, "ret", [.unsigned16]), (0xc8, "enter", [.unsigned16, .unsigned8]),
    (0xca, "ret far", [.unsigned16]), (0xcd, "int", [.unsigned8]),
    (0xe0, "loopne", [.rel8]), (0xe1, "loope", [.rel8]), (0xe2, "loop", [.rel8]),
    (0xe3, if c.isShort then "jecxz" else "jrcxz", [.rel8]),
    (0xe4, "in", [.fixed "al", .unsigned8]), (0xe5, "in", [portOf c op, .unsigned8]),
    (0xe6, "out", [.unsigned8, .fixed "al"]), (0xe7, "out", [.unsigned8, portOf c op]),
    (0xe8, "call", [.rel32]), (0xe9, "jmp", [.rel32]), (0xeb, "jmp", [.rel8]),
    (0xec, "in", [.fixed "al", .fixed "dx"]), (0xed, "in", [portOf c op, .fixed "dx"]),
    (0xee, "out", [.fixed "dx", .fixed "al"]), (0xef, "out", [.fixed "dx", portOf c op])]

/-- A look into a table of bytes, which shows only the segment it reads from. -/
def tableLook (c : Lead) : Named :=
  ⟨"xlat", (c.segment.map fun s => Arg.name (s.dropEnd 1).toString).toList⟩

/-- Exchanges with the accumulator; of the one with itself nothing is left to do. -/
def exchange (c : Lead) (op : UInt8) : Scan Named :=
  if op = 0x90 ∧ c.again = some 0xf3 then return ⟨"pause", []⟩
  else if op = 0x90 ∧ !c.rexBit 1 then return ⟨"nop", []⟩
  else make c op "xchg" [.lowFull, .accumulator]

/-- Constants into memory, which must have the digit 0; one other operand byte aborts a transaction or
starts one. -/
def moveConst (c : Lead) (op : UInt8) : Scan Named := do
  match ← get with
  | 0xf8 :: _ =>
      let _ ← Scan.byte
      if op = 0xc6 then make c op "xabort" [.unsigned8]
      else if c.size = .word then return ⟨"xbegin", [.distance (← Scan.signed 2)]⟩
      else make c op "xbegin" [.rel32]
  | _ => group c op ["mov"] [rmOf op, constOf op]

def regular (c : Lead) (op : UInt8) : Scan Named :=
  if op < 0x40 ∧ op &&& 7 < 6 then arithmetic c op
  else if op &&& 0xf8 = 0x50 then make c op "push" [.lowStack]
  else if op &&& 0xf8 = 0x58 then make c op "pop" [.lowStack]
  else if op = 0x6c ∨ op = 0x6d then onPorts c op "ins"
  else if op = 0x6e ∨ op = 0x6f then onPorts c op "outs"
  else if op &&& 0xf0 = 0x70 then make c op ("j" ++ entry conditions (op &&& 15).toNat) [.rel8]
  else if op = 0x80 ∨ op = 0x81 then group c op aluNames [rmOf op, constOf op]
  else if op = 0x83 then group c op aluNames [.rmFull, .signed8]
  else if op = 0x8f then group c op ["pop"] [.rmStack]
  else if op &&& 0xf8 = 0x90 then exchange c op
  else if op = 0xa4 ∨ op = 0xa5 then onStrings c op "movs" [.rdi, .rsi]
  else if op = 0xa6 ∨ op = 0xa7 then onStrings c op "cmps" [.rsi, .rdi]
  else if op = 0xaa ∨ op = 0xab then onStrings c op "stos" [.rdi]
  else if op = 0xac ∨ op = 0xad then onStrings c op "lods" [.rsi]
  else if op = 0xae ∨ op = 0xaf then onStrings c op "scas" [.rdi]
  else if op &&& 0xf8 = 0xb0 then make c op "mov" [.low .byte, .unsigned8]
  else if op &&& 0xf8 = 0xb8 then make c op "mov" [.lowFull, .constWide]
  else if op = 0xc0 ∨ op = 0xc1 then group c op shiftNames [rmOf op, .unsigned8]
  else if op = 0xc6 ∨ op = 0xc7 then moveConst c op
  else if op = 0xd0 ∨ op = 0xd1 then group c op shiftNames [rmOf op, .one]
  else if op = 0xd2 ∨ op = 0xd3 then group c op shiftNames [rmOf op, .fixed "cl"]
  else if op = 0xd7 then return tableLook c
  else if op &&& 0xf8 = 0xd8 then float c op
  else if op = 0xf6 ∨ op = 0xf7 then unary c op
  else if op = 0xfe then group c op ["inc", "dec"] [.rm .byte]
  else if op = 0xff then indirect c
  else Scan.unknown

def oneByte (c : Lead) (op : UInt8) : Scan Named :=
  match (plain c).lookup op.toNat, (simple c op).lookup op.toNat with
  | some name, _ => return ⟨name, []⟩
  | none, some (name, specs) => make c op name specs
  | none, none => regular c op

/-! Opcodes of two bytes. -/

def twoPlain : List (Nat × String) :=
  [(0x05, "syscall"), (0x06, "clts"), (0x07, "sysret"), (0x08, "invd"), (0x09, "wbinvd"), (0x0b, "ud2"),
    (0x30, "wrmsr"), (0x31, "rdtsc"), (0x32, "rdmsr"), (0x33, "rdpmc"), (0x34, "sysenter"),
    (0x35, "sysexit"), (0x77, "emms"), (0xa2, "cpuid"), (0xaa, "rsm")]

def twoSimple (c : Lead) (op : UInt8) : List (Nat × String × List Spec) :=
  let far := c.size.bytes + 2
  [(0x02, "lar", [.fieldFull, .rmWord]), (0x03, "lsl", [.fieldFull, .rmWord]),
    (0x20, "mov", [.rmAlways, .control "cr"]), (0x21, "mov", [.rmAlways, .control "dr"]),
    (0x22, "mov", [.control "cr", .rmAlways]), (0x23, "mov", [.control "dr", .rmAlways]),
    (0xa0, "push", [.fixed "fs"]), (0xa1, "pop", [.fixed "fs"]), (0xa8, "push", [.fixed "gs"]),
    (0xa9, "pop", [.fixed "gs"]), (0xa3, "bt", [.rmFull, .fieldFull]), (0xab, "bts", [.rmFull, .fieldFull]),
    (0xb3, "btr", [.rmFull, .fieldFull]), (0xbb, "btc", [.rmFull, .fieldFull]),
    (0xa4, "shld", [.rmFull, .fieldFull, .unsigned8]), (0xa5, "shld", [.rmFull, .fieldFull, .fixed "cl"]),
    (0xac, "shrd", [.rmFull, .fieldFull, .unsigned8]), (0xad, "shrd", [.rmFull, .fieldFull, .fixed "cl"]),
    (0xaf, "imul", [.fieldFull, .rmFull]), (0xb0, "cmpxchg", [rmOf op, fieldOf op]),
    (0xb1, "cmpxchg", [rmOf op, fieldOf op]), (0xb2, "lss", [.fieldFull, .mem far]),
    (0xb4, "lfs", [.fieldFull, .mem far]), (0xb5, "lgs", [.fieldFull, .mem far]),
    (0xb6, "movzx", [.fieldFull, .rm .byte]), (0xb7, "movzx", [.fieldFull, .rm .word]),
    (0xbe, "movsx", [.fieldFull, .rm .byte]), (0xbf, "movsx", [.fieldFull, .rm .word]),
    (0xbc, if c.again = some 0xf3 then "tzcnt" else "bsf", [.fieldFull, .rmFull]),
    (0xbd, if c.again = some 0xf3 then "lzcnt" else "bsr", [.fieldFull, .rmFull]),
    (0xc0, "xadd", [rmOf op, fieldOf op]), (0xc1, "xadd", [rmOf op, fieldOf op]),
    (0xc3, "movnti", [.mem c.size.bytes, .fieldFull])]

def system (c : Lead) : Scan Named := do
  let f ← Fields.read c
  let name ← chosen ["sldt", "str", "lldt", "ltr", "verr", "verw"] (f.field % 8)
  withFields c 0x00 f name [if f.field % 8 < 2 then .rmWord else .rm .word]

def machinePlain : List (Nat × String) :=
  [(0xc8, "monitor"), (0xc9, "mwait"), (0xd0, "xgetbv"), (0xd1, "xsetbv"), (0xd5, "xend"),
    (0xd6, "xtest"), (0xf8, "swapgs"), (0xf9, "rdtscp")]

def machine (c : Lead) : Scan Named := do
  match ← get with
  | [] => throw .cutOff
  | m :: _ =>
      match machinePlain.lookup m.toNat with
      | some name =>
          let _ ← Scan.byte
          return ⟨name, []⟩
      | none =>
          let f ← Fields.read c
          let use := withFields c 0x01 f
          match f.field % 8 with
          | 0 => use "sgdt" [.mem 0]
          | 1 => use "sidt" [.mem 0]
          | 2 => use "lgdt" [.mem 0]
          | 3 => use "lidt" [.mem 0]
          | 4 => use "smsw" [.rmWord]
          | 6 => use "lmsw" [.rm .word]
          | 7 => use "invlpg" [.mem 1]
          | _ => Scan.unknown

/-- Fences, and saving and restoring of machine state. -/
def stateful (c : Lead) : Scan Named := do
  let f ← Fields.read c
  let digit := f.field % 8
  let wide (s : String) := if c.rexBit 8 then s ++ "64" else s
  let use := withFields c 0xae f
  match f.place, c.again == some 0xf3 with
  | none, true =>
      let name ← chosen ["rdfsbase", "rdgsbase", "wrfsbase", "wrgsbase"] digit
      withFields { c with isWord := false } 0xae f name [.rmFull]
  | none, false =>
      let name ← chosen ["", "", "", "", "", "lfence", "mfence", "sfence"] digit
      return ⟨name, []⟩
  | some _, _ =>
      match digit with
      | 0 => use (wide "fxsave") [.mem 0]
      | 1 => use (wide "fxrstor") [.mem 0]
      | 2 => use "ldmxcsr" [.mem 4]
      | 3 => use "stmxcsr" [.mem 4]
      | 4 => use (wide "xsave") [.mem 0]
      | 5 => use (wide "xrstor") [.mem 0]
      | 6 => use (wide "xsaveopt") [.mem 0]
      | _ =>
          match f.place with
          | some p => return ⟨"clflush", [.place "zmmword " p]⟩
          | none => Scan.unknown

def prefetch (c : Lead) (names : List String) : Scan Named := do
  let f ← Fields.read c
  let name ← chosen names (f.field % 8)
  match f.place with
  | some p => return ⟨name, [.place "zmmword " p]⟩
  | none => Scan.unknown

def exchangePair (c : Lead) : Scan Named := do
  let f ← Fields.read c
  match f.field % 8, f.place with
  | 1, some _ =>
      if c.rexBit 8 then withFields c 0xc7 f "cmpxchg16b" [.mem 16]
      else withFields c 0xc7 f "cmpxchg8b" [.mem 8]
  | 6, none => withFields c 0xc7 f "rdrand" [.rmFull]
  | 7, none => withFields c 0xc7 f "rdseed" [.rmFull]
  | _, _ => Scan.unknown

def twoRegular (c : Lead) (op : UInt8) : Scan Named :=
  let condition := entry conditions (op &&& 15).toNat
  if op = 0x00 then system c
  else if op = 0x01 then machine c
  else if op = 0x0d then prefetch c ["", "prefetchw"]
  else if op = 0x18 then prefetch c ["prefetchnta", "prefetcht0", "prefetcht1", "prefetcht2"]
  else if op = 0x1f then do
    let x ← group c op ["nop"] [.rmFull]
    return { x with args := x.args ++ [.name (if c.size = .word then "ax" else "eax")] }
  else if op &&& 0xf0 = 0x40 then make c op ("cmov" ++ condition) [.fieldFull, .rmFull]
  else if op &&& 0xf0 = 0x80 then make c op ("j" ++ condition) [.rel32]
  else if op &&& 0xf0 = 0x90 then make c op ("set" ++ condition) [.rm .byte]
  else if op = 0xae then stateful c
  else if op = 0xb8 ∧ c.again = some 0xf3 then make c op "popcnt" [.fieldFull, .rmFull]
  else if op = 0xba then group c op ["", "", "", "", "bt", "bts", "btr", "btc"] [.rmFull, .unsigned8]
  else if op = 0xc7 then exchangePair c
  else if op &&& 0xf8 = 0xc8 then make c op "bswap" [.lowFull]
  else Scan.unknown

def twoByte (c : Lead) (op : UInt8) : Scan Named :=
  match twoPlain.lookup op.toNat, (twoSimple c op).lookup op.toNat with
  | some name, _ => return ⟨name, []⟩
  | none, some (name, specs) => make c op name specs
  | none, none => twoRegular c op

def instruction (c : Lead) : Scan Named := do
  let op ← Scan.byte
  if op = 0x0f then twoByte c (← Scan.byte) else oneByte c op

end OpcodeMap

namespace Named

/-- Instructions without arguments that show the operand size prefix. -/
def showsWord (x : Named) : Bool :=
  x.args.isEmpty &&
    ["cbw", "cdqe", "clc", "cld", "cli", "clts", "cmc", "cpuid", "cqo", "cwd", "fdecstp", "fincstp",
      "fnclex", "fninit", "fnop", "fwait", "hlt", "insb", "insd", "insw", "int1", "int3", "invd", "iret",
      "iretq", "lahf", "leave", "monitor", "mwait", "nop", "outsb", "outsd", "outsw", "pause", "popf",
      "popfq", "pushf", "pushfq", "rdmsr", "rdpmc", "rdtsc", "rdtscp", "rsm", "sahf", "stc", "std",
      "sti", "sysenter", "sysexit", "sysret", "ud2", "wbinvd", "wrmsr", "xend", "xlat",
      "xtest"].contains x.name

/-- Instructions on strings, which can be repeated. -/
def isRepeatable (x : Named) : Bool :=
  ["insb", "insw", "insd", "outsb", "outsw", "outsd", "movsb", "movsw", "movsd", "movsq", "cmpsb",
    "cmpsw", "cmpsd", "cmpsq", "stosb", "stosw", "stosd", "stosq", "lodsb", "lodsw", "lodsd", "lodsq",
    "scasb", "scasw", "scasd", "scasq"].contains x.name

def isConditionalJump (x : Named) : Bool :=
  OpcodeMap.conditions.any fun s => x.name == "j" ++ s

/-- Instructions that can be locked, when they change memory. -/
def isLockable (x : Named) : Bool :=
  ["add", "adc", "and", "btc", "btr", "bts", "cmpxchg", "cmpxchg8b", "cmpxchg16b", "dec", "inc", "neg",
    "not", "or", "sbb", "sub", "xor", "xadd", "xchg"].contains x.name

def hidesAddress (x : Named) : Bool :=
  !(x.args.any Arg.isPlace) || ["insb", "insw", "insd", "outsb", "outsw", "outsd", "xlat"].contains x.name

/-- The words for the prefixes that are shown. -/
def leadText (c : Lead) (opcode : UInt8) (x : Named) : String :=
  let toMemory := x.args.head?.any Arg.isPlace
  let isTransaction := toMemory && (x.name == "xchg" || (c.isLocked && x.isLockable))
  let isRelease := toMemory && x.name == "mov" && (opcode &&& 0xfe = 0x88 || opcode &&& 0xfe = 0xc6)
  let again :=
    match c.again with
    | some b =>
        if x.isRepeatable then (if b = 0xf2 then "repne " else "rep ")
        else if b = 0xf2 ∧ isTransaction then "xacquire "
        else if b = 0xf3 ∧ (isTransaction ∨ isRelease) then "xrelease "
        else if b = 0xf2 ∧ (x.isConditionalJump ∨ x.name = "call" ∨ x.name = "ret" ∨
            (x.name = "jmp" ∧ opcode ≠ 0xeb)) then "bnd "
        else ""
    | none => ""
  again ++ (if c.isLocked then "lock " else "") ++
    (if x.isConditionalJump then c.hint.getD "" else "") ++
    (if c.isShort && x.hidesAddress then "addr32 " else "") ++
    (if c.isWord && x.showsWord then "data16 " else "")

/-- A pushed constant is shown without a sign. -/
def argTexts (x : Named) (pc : UInt64) (length : Nat) : List String :=
  x.args.map fun a =>
    match a with
    | .const n => if x.name = "push" ∧ n < 0 then Text.hex (n + 0x100000000).toNat else a.text pc length
    | .place sized p =>
        if x.name = "lea" then (Arg.place sized { p with segment := "" }).text pc length
        else a.text pc length
    | a => a.text pc length

end Named

/-- Any instruction, with the bytes in front of it and how many bytes it takes. -/
structure AnyInstr where
  lead : Lead
  opcode : UInt8
  named : Named
  length : Nat

namespace AnyInstr

/-- No instruction has more than 15 bytes. -/
def read (bs : List UInt8) : Except Unread AnyInstr :=
  let bs := bs.take 15
  let (c, rest) := Lead.read bs
  match (OpcodeMap.instruction c).run rest with
  | .ok (named, left) => .ok ⟨c, rest.headD 0, named, bs.length - left.length⟩
  | .error u => .error (if 0 < c.count then .cutOff else u)

def text (x : AnyInstr) (pc : UInt64) : String :=
  let args := x.named.argTexts pc x.length
  x.named.leadText x.lead x.opcode ++ x.named.name ++
    (if args.isEmpty then "" else " " ++ ", ".intercalate args)

end AnyInstr

end Dynarec.Machine
