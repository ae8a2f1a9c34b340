import Dynarec.Machine.Encode

/-!
# Decoding

Reads one instruction from the front of a byte list and says how many bytes it took. Exactly the forms
that `Instr` names are read; an operand with an index register, an address relative to the program
counter and the high bytes of the first registers are not among them.
-/

namespace Dynarec.Machine

namespace Decode

structure Prefixes where
  word : Bool := false
  rex : Option UInt8 := none

namespace Prefixes

def bit (p : Prefixes) (mask : UInt8) : Bool :=
  match p.rex with
  | some x => x &&& mask != 0
  | none => false

def wide (p : Prefixes) : Bool := p.bit 8
def extendedField (p : Prefixes) : Bool := p.bit 4
def extendedBase (p : Prefixes) : Bool := p.bit 1

def size (p : Prefixes) : Size :=
  if p.wide then .qword else if p.word then .word else .dword

def isNarrow (p : Prefixes) : Bool := p.size == .word

def sizeOf (p : Prefixes) (opcode : UInt8) : Size :=
  if opcode &&& 1 = 0 then .byte else p.size

end Prefixes

def takePrefixes : List UInt8 → Prefixes × List UInt8
  | bs =>
      let (word, bs) := match bs with
        | 0x66 :: rest => (true, rest)
        | _ => (false, bs)
      match bs with
      | x :: rest => if x &&& 0xf0 = 0x40 then (⟨word, some x⟩, rest) else (⟨word, none⟩, bs)
      | [] => (⟨word, none⟩, [])

def extend (extended : Bool) (bits : UInt8) : Reg :=
  Reg.ofIndex ((bits &&& 7).toNat + if extended then 8 else 0)

def imm8? : List UInt8 → Option (Int32 × List UInt8)
  | a :: rest => some (a.toInt8.toInt32, rest)
  | [] => none

def imm16? : List UInt8 → Option (Int32 × List UInt8)
  | a :: b :: rest => some ((a.toUInt16 ||| b.toUInt16 <<< 8).toInt16.toInt32, rest)
  | _ => none

def word32 (a b c d : UInt8) : UInt32 :=
  a.toUInt32 ||| b.toUInt32 <<< 8 ||| c.toUInt32 <<< 16 ||| d.toUInt32 <<< 24

def imm32? : List UInt8 → Option (Int32 × List UInt8)
  | a :: b :: c :: d :: rest => some ((word32 a b c d).toInt32, rest)
  | _ => none

/-- What an operand byte says: the bits of its register field and the operand. -/
structure Operands where
  field : UInt8
  rm : Operand

/-- A displacement of the length that `mode` gives; four bytes are not taken for what fits in one. -/
def disp? (mode : UInt8) (bs : List UInt8) : Option (Int32 × List UInt8) :=
  if mode = 0 then some (0, bs)
  else if mode = 1 then imm8? bs
  else do
    let (x, rest) ← imm32? bs
    if Encode.fitsImm8 x then none else some (x, rest)

def operands? (p : Prefixes) : List UInt8 → Option (Operands × List UInt8)
  | [] => none
  | m :: rest =>
      let mode := m >>> 6
      let field := (m >>> 3) &&& 7
      let low := m &&& 7
      let base := extend p.extendedBase low
      if mode = 3 then some (⟨field, .reg base⟩, rest)
      else if mode = 0 ∧ low = 5 then none
      else do
        let rest ← if low = 4 then
            match rest with
            | s :: rest => if s = 0x24 ∧ !p.bit 2 then some rest else none
            | [] => none
          else some rest
        let (disp, rest) ← disp? mode rest
        return (⟨field, .mem ⟨base, disp⟩⟩, rest)

def fieldReg (p : Prefixes) (field : UInt8) : Reg :=
  extend p.extendedField field

/-- Without a REX prefix four byte registers are other ones. -/
def byteNamed (p : Prefixes) (size : Size) (r : Reg) : Bool :=
  size != .byte || p.rex.isSome || !r.needsRexByte

def byteNamedRm (p : Prefixes) (size : Size) : Operand → Bool
  | .reg r => byteNamed p size r
  | .mem _ => true

/-- A constant as long as the operand, four bytes at most; a byte is sign-extended if asked. -/
def immOf (size : Size) (signedByte : Bool) (bs : List UInt8) : Option (Int32 × List UInt8) :=
  match size with
  | .byte =>
      if signedByte then imm8? bs
      else
        match bs with
        | a :: rest => some (a.toUInt32.toInt32, rest)
        | [] => none
  | .word => imm16? bs
  | .dword | .qword => imm32? bs

def aluOp? (digit : UInt8) : Option AluOp := AluOp.all.find? fun op => op.digit == digit
def unaryOp? (digit : UInt8) : Option UnaryOp := UnaryOp.all.find? fun op => op.digit == digit
def shiftOp? (digit : UInt8) : Option ShiftOp := ShiftOp.all.find? fun op => op.digit == digit

/-- An opcode with a register and an operand of the same size. -/
def regRm (p : Prefixes) (opcode : UInt8) (bs : List UInt8)
    (make : Size → Reg → Operand → Instr) : Option (Instr × List UInt8) := do
  let (o, rest) ← operands? p bs
  let size := p.sizeOf opcode
  let r := fieldReg p o.field
  if byteNamed p size r && byteNamedRm p size o.rm then some (make size r o.rm, rest) else none

/-- An opcode with an operation in the register field. -/
def digitRm (p : Prefixes) (opcode : UInt8) (bs : List UInt8)
    (make : Size → UInt8 → Operand → List UInt8 → Option (Instr × List UInt8)) :
    Option (Instr × List UInt8) := do
  let (o, rest) ← operands? p bs
  let size := p.sizeOf opcode
  if byteNamedRm p size o.rm then make size o.field o.rm rest else none

def twoByte (p : Prefixes) : List UInt8 → Option (Instr × List UInt8)
  | [] => none
  | opcode :: bs =>
      if opcode = 0x0b then (if p.word then none else some (.ud2, bs))
      else if opcode &&& 0xf0 = 0x80 then do
        let (rel, rest) ← imm32? bs
        return (.jcc ⟨opcode &&& 15⟩ rel, rest)
      else if opcode &&& 0xf0 = 0x90 then do
        let (o, rest) ← operands? p bs
        if byteNamedRm p .byte o.rm then return (.setcc ⟨opcode &&& 15⟩ o.rm, rest) else none
      else do
        let (o, rest) ← operands? p bs
        let r := fieldReg p o.field
        if opcode = 0xaf then return (.imul p.size r o.rm, rest)
        else if opcode = 0xb6 ∧ p.size = .dword ∧ byteNamedRm p .byte o.rm then
          return (.movzx .byte r o.rm, rest)
        else if opcode = 0xb7 ∧ p.size = .dword then return (.movzx .word r o.rm, rest)
        else if opcode = 0xbe ∧ p.wide ∧ byteNamedRm p .byte o.rm then
          return (.movsx .byte r o.rm, rest)
        else if opcode = 0xbf ∧ p.wide then return (.movsx .word r o.rm, rest)
        else none

def oneByte (p : Prefixes) (opcode : UInt8) (bs : List UInt8) : Option (Instr × List UInt8) :=
  if opcode &&& 0xc6 = 0x02 then do
    let op ← aluOp? (opcode >>> 3)
    regRm p opcode bs (.alu op)
  else if opcode = 0x63 then do
    let (o, rest) ← operands? p bs
    if p.wide then return (.movsxd (fieldReg p o.field) o.rm, rest) else none
  else if opcode = 0x80 ∨ opcode = 0x81 then
    digitRm p opcode bs fun size digit rm rest => do
      let op ← aluOp? digit
      let (x, rest) ← immOf size true rest
      return (.aluImm op size rm x, rest)
  else if opcode = 0x83 then
    digitRm p opcode bs fun size digit rm rest => do
      let op ← aluOp? digit
      let (x, rest) ← imm8? rest
      return (.aluImm op size rm x, rest)
  else if opcode = 0x84 ∨ opcode = 0x85 then
    regRm p opcode bs fun size r rm => .test size rm r
  else if opcode = 0x88 ∨ opcode = 0x89 then
    regRm p opcode bs fun size r rm => .movTo size rm r
  else if opcode = 0x8a ∨ opcode = 0x8b then
    regRm p opcode bs fun size r rm => .movFrom size r rm
  else if opcode = 0x8d then do
    let (o, rest) ← operands? p bs
    match o.rm with
    | .mem m => if p.wide then return (.lea (fieldReg p o.field) m, rest) else none
    | .reg _ => none
  else if opcode = 0xc0 ∨ opcode = 0xc1 then
    digitRm p opcode bs fun size digit rm rest => do
      let op ← shiftOp? digit
      match rest with
      | n :: rest => return (.shiftImm op size rm n, rest)
      | [] => none
  else if opcode = 0xd2 ∨ opcode = 0xd3 then
    digitRm p opcode bs fun size digit rm rest => do
      let op ← shiftOp? digit
      return (.shiftCl op size rm, rest)
  else if opcode = 0xc6 ∨ opcode = 0xc7 then
    digitRm p opcode bs fun size digit rm rest => do
      let (x, rest) ← immOf size false rest
      if digit = 0 then return (.movImm size rm x, rest) else none
  else if opcode = 0xf6 ∨ opcode = 0xf7 then
    digitRm p opcode bs fun size digit rm rest => do
      let op ← unaryOp? digit
      return (.unary op size rm, rest)
  else if opcode = 0xff then do
    let (o, rest) ← operands? p bs
    match o.rm with
    | .reg r => if o.field = 2 then return (.call r, rest) else none
    | .mem _ => none
  else none

def opcode? (p : Prefixes) : List UInt8 → Option (Instr × List UInt8)
  | [] => none
  | opcode :: bs =>
      let r := extend p.extendedBase opcode
      if opcode = 0x0f then twoByte p bs
      else if opcode &&& 0xf8 = 0x50 then (if p.isNarrow then none else some (.push r, bs))
      else if opcode &&& 0xf8 = 0x58 then (if p.isNarrow then none else some (.pop r, bs))
      else if opcode = 0x90 ∧ p.rex.isNone ∧ !p.word then some (.nop, bs)
      else if opcode = 0x99 ∧ !p.word then some (if p.wide then .cqo else .cdq, bs)
      else if opcode &&& 0xf8 = 0xb8 ∧ !p.isNarrow then
        match bs with
        | a :: b :: c :: d :: rest =>
            if !p.wide then some (.movImm32 r (word32 a b c d), rest)
            else
              match rest with
              | _ :: _ :: _ :: _ :: tail => some (.movImm64 r (Bytes.toWordLE (bs.take 8)), tail)
              | _ => none
        | _ => none
      else if opcode = 0xc3 then some (.ret, bs)
      else if opcode = 0xe9 then do
        let (rel, rest) ← imm32? bs
        return (.jmp rel, rest)
      else oneByte p opcode bs

end Decode

def decode (bs : List UInt8) : Option (Instr × Nat) :=
  let (p, rest) := Decode.takePrefixes bs
  match Decode.opcode? p rest with
  | some (i, rest) => some (i, bs.length - rest.length)
  | none => none

end Dynarec.Machine
