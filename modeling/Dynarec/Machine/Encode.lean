import Dynarec.Host.Bytes
import Dynarec.Machine.Instr

/-!
# Encoding

An instruction is encoded as a list of pieces: prefixes, opcode, operand bytes, displacement and
constant. A code buffer takes whole pieces, so the pieces are kept apart until they are written; the
encoding is their concatenation.
-/

namespace Dynarec.Machine

/-- What stands in the register field of an operand byte. -/
inductive Field where
  | reg (r : Reg)
  | digit (n : UInt8)

namespace Field

def bits : Field → UInt8
  | reg r => r.low
  | digit n => n

def isExtended : Field → Bool
  | reg r => r.isExtended
  | digit _ => false

def needsRexByte : Field → Bool
  | reg r => r.needsRexByte
  | digit _ => false

end Field

namespace Operand

/-- Whether the low byte of the operand is named only behind a REX prefix. -/
def needsRexByte : Operand → Bool
  | reg r => r.needsRexByte
  | mem _ => false

end Operand

namespace Encode

def ofBit (b : Bool) (x : UInt8) : UInt8 :=
  if b then x else 0

/-- The bits of a REX prefix: wide operand, extended field, extended base. -/
def rexBits (wide extendedField extendedBase : Bool) : UInt8 :=
  ofBit wide 8 ||| ofBit extendedField 4 ||| ofBit extendedBase 1

/-- The REX prefix, present if it says anything or is needed to name a byte. -/
def rex (wide : Bool) (field : Field) (rm : Operand) (force : Bool) : List (List UInt8) :=
  let bits := rexBits wide field.isExtended rm.base.isExtended
  if bits != 0 || force then [[0x40 ||| bits]] else []

def modRm (mod field rm : UInt8) : UInt8 :=
  mod <<< 6 ||| field <<< 3 ||| rm

def imm16 (x : UInt16) : List UInt8 :=
  [x.toUInt8, (x >>> 8).toUInt8]

def imm32 (x : UInt32) : List UInt8 :=
  [x.toUInt8, (x >>> 8).toUInt8, (x >>> 16).toUInt8, (x >>> 24).toUInt8]

def imm64 (x : UInt64) : List UInt8 :=
  Bytes.ofWordLE 8 x

def fitsImm8 (x : Int32) : Bool :=
  -128 ≤ x && x ≤ 127

/-- How a memory operand gives its displacement: not at all, in a byte, or in full. A base whose number
ends in 5 always gives one. -/
def memMode (m : Mem) : UInt8 :=
  if m.disp == 0 && m.base.low != 5 then 0
  else if fitsImm8 m.disp then 1
  else 2

/-- The operand byte and what follows it. A base whose number ends in 4 needs a second byte. -/
def operand (field : Field) : Operand → List (List UInt8)
  | .reg r => [[modRm 3 field.bits r.low]]
  | .mem m =>
      let mode := memMode m
      [[modRm mode field.bits m.base.low]] ++
        (if m.base.low == 4 then [[0x24]] else []) ++
        (if mode == 1 then [[m.disp.toUInt32.toUInt8]]
          else if mode == 2 then [imm32 m.disp.toUInt32] else [])

/-- An operation with an operand size. The opcode of the byte form is one less. -/
def sized (size : Size) (field : Field) (rm : Operand) (opcode : UInt8) : List (List UInt8) :=
  let force := size == .byte && (field.needsRexByte || rm.needsRexByte)
  (if size == .word then [[0x66]] else []) ++
    rex (size == .qword) field rm force ++
    [[if size == .byte then opcode - 1 else opcode]] ++ operand field rm

def extended (wide : Bool) (field : Field) (rm : Operand) (force : Bool) (opcode : UInt8) :
    List (List UInt8) :=
  rex wide field rm force ++ [[0x0f, opcode]] ++ operand field rm

def short (wide : Bool) (r : Reg) (opcode : UInt8) : List (List UInt8) :=
  rex wide (.digit 0) (.reg r) false ++ [[opcode + r.low]]

def narrowByte : Narrow → Operand → Bool
  | .byte, rm => rm.needsRexByte
  | .word, _ => false

def narrowOpcode (byteOpcode : UInt8) : Narrow → UInt8
  | .byte => byteOpcode
  | .word => byteOpcode + 1

end Encode

namespace Instr

open Encode

def pieces : Instr → List (List UInt8)
  | movTo size dst src => sized size (.reg src) dst 0x89
  | movFrom size dst src => sized size (.reg dst) src 0x8b
  | movImm32 dst x => short false dst 0xb8 ++ [imm32 x]
  | movImm64 dst x => short true dst 0xb8 ++ [imm64 x]
  | movImm size dst x =>
      sized size (.digit 0) dst 0xc7 ++
        [match size with
          | .byte => [x.toUInt32.toUInt8]
          | .word => imm16 x.toUInt32.toUInt16
          | .dword | .qword => imm32 x.toUInt32]
  | movzx size dst src =>
      extended false (.reg dst) src (narrowByte size src) (narrowOpcode 0xb6 size)
  | movsx size dst src =>
      extended true (.reg dst) src (narrowByte size src) (narrowOpcode 0xbe size)
  | movsxd dst src => rex true (.reg dst) src false ++ [[0x63]] ++ operand (.reg dst) src
  | alu op size dst src => sized size (.reg dst) src (op.digit <<< 3 ||| 3)
  | aluImm op size dst x =>
      if size == .byte then sized .byte (.digit op.digit) dst 0x81 ++ [[x.toUInt32.toUInt8]]
      else if fitsImm8 x then sized size (.digit op.digit) dst 0x83 ++ [[x.toUInt32.toUInt8]]
      else sized size (.digit op.digit) dst 0x81 ++ [imm32 x.toUInt32]
  | test size rm reg => sized size (.reg reg) rm 0x85
  | imul size dst src =>
      (if size == .word then [[0x66]] else []) ++
        extended (size == .qword) (.reg dst) src false 0xaf
  | unary op size rm => sized size (.digit op.digit) rm 0xf7
  | shiftCl op size rm => sized size (.digit op.digit) rm 0xd3
  | shiftImm op size rm n => sized size (.digit op.digit) rm 0xc1 ++ [[n]]
  | setcc c rm => extended false (.digit 0) rm rm.needsRexByte (0x90 + c.code)
  | cdq => [[0x99]]
  | cqo => [[0x48, 0x99]]
  | lea dst src => rex true (.reg dst) (.mem src) false ++ [[0x8d]] ++ operand (.reg dst) (.mem src)
  | push r => short false r 0x50
  | pop r => short false r 0x58
  | call r => rex false (.digit 0) (.reg r) false ++ [[0xff]] ++ operand (.digit 2) (.reg r)
  | ret => [[0xc3]]
  | ud2 => [[0x0f, 0x0b]]
  | nop => [[0x90]]
  | jmp rel => [[0xe9], imm32 rel.toUInt32]
  | jcc c rel => [[0x0f, 0x80 + c.code], imm32 rel.toUInt32]

def encode (i : Instr) : List UInt8 :=
  i.pieces.flatten

def length (i : Instr) : Nat :=
  i.encode.length

end Instr

end Dynarec.Machine
