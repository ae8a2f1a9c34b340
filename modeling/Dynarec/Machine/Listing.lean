import Dynarec.Machine.Decode
import Dynarec.Machine.OpcodeMap
import Dynarec.Text.Blank

/-!
# Listings of machine code

Machine code as text, one instruction a line: address, bytes, and the instruction with its destination
first. A byte is listed alone if the instruction it starts is cut off, and as data if it starts none.
-/

namespace Dynarec.Machine

namespace Size

def pointer : Size → String
  | byte => "byte ptr "
  | word => "word ptr "
  | dword => "dword ptr "
  | qword => "qword ptr "

end Size

namespace Mem

/-- A displacement that takes four bytes is listed without a sign. -/
def listed (m : Mem) : String :=
  if Encode.fitsImm8 m.disp then m.text
  else "[" ++ m.base.name ++ "+" ++ Text.hex m.disp.toUInt32.toNat ++ "]"

end Mem

namespace Operand

def sizedText (size : Size) : Operand → String
  | reg r => r.sizedName size
  | mem m => size.pointer ++ m.listed

end Operand

namespace Cond

def suffix (c : Cond) : String :=
  (["o", "no", "b", "nb", "z", "nz", "be", "nbe", "s", "ns", "p", "np", "l", "nl", "le", "nle"][
    (c.code &&& 15).toNat]?).getD ""

end Cond

namespace Instr

def two (name dst src : String) : String :=
  name ++ " " ++ dst ++ ", " ++ src

/-- The target of a jump: its address, or the signed distance if the jump stands at address zero. -/
def targetText (pc : UInt64) (length : Nat) (rel : Int32) : String :=
  if pc = 0 then (if rel < 0 then "." else ".+") ++ Text.hexSigned rel.toInt
  else Text.hexWord (pc + length.toUInt64 + rel.toInt64.toUInt64)

/-- A constant of an arithmetic operation; a byte has no sign. -/
def constText (size : Size) (x : Int32) : String :=
  if size = .byte then Text.hex x.toUInt32.toUInt8.toNat else Text.hexSigned x.toInt

def text (pc : UInt64) (length : Nat) : Instr → String
  | movTo size dst src => two "mov" (dst.sizedText size) (src.sizedName size)
  | movFrom size dst src => two "mov" (dst.sizedName size) (src.sizedText size)
  | movImm32 dst x => two "mov" (dst.sizedName .dword) (Text.hexSigned x.toInt32.toInt)
  | movImm64 dst x => two "mov" dst.name (Text.hexWord x)
  | movImm size dst x => two "mov" (dst.sizedText size) (Text.hexSigned x.toInt)
  | movzx size dst src => two "movzx" (dst.sizedName .dword) (src.sizedText size.size)
  | movsx size dst src => two "movsx" dst.name (src.sizedText size.size)
  | movsxd dst src => two "movsxd" dst.name (src.sizedText .dword)
  | alu op size dst src => two op.name (dst.sizedName size) (src.sizedText size)
  | aluImm op size dst x => two op.name (dst.sizedText size) (constText size x)
  | test size rm reg => two "test" (rm.sizedText size) (reg.sizedName size)
  | imul size dst src => two "imul" (dst.sizedName size) (src.sizedText size)
  | unary op size rm => op.name ++ " " ++ rm.sizedText size
  | shiftCl op size rm => two op.name (rm.sizedText size) "cl"
  | shiftImm op size rm n => two op.name (rm.sizedText size) (Text.hex n.toNat)
  | setcc c rm => "set" ++ c.suffix ++ " " ++ rm.sizedText .byte
  | cdq => "cdq"
  | cqo => "cqo"
  | lea dst src => two "lea" dst.name ("ptr " ++ src.listed)
  | push r => "push " ++ r.name
  | pop r => "pop " ++ r.name
  | call r => "call " ++ r.name
  | ret => "ret"
  | ud2 => "ud2"
  | nop => "nop"
  | jmp rel => "jmp " ++ targetText pc length rel
  | jcc c rel => "j" ++ c.suffix ++ " " ++ targetText pc length rel

end Instr

inductive Found where
  | instr (i : Instr)
  /-- An instruction that is never emitted. -/
  | foreign (x : AnyInstr)
  | lone (b : UInt8)
  | data (b : UInt8)

structure Chunk where
  bytes : List UInt8
  found : Found

/-- What stands at the front of `b :: rest`, and how many bytes of `rest` belong to it. -/
def frontOf (b : UInt8) (rest : List UInt8) : Found × Nat :=
  match decode (b :: rest) with
  | some (i, n) => (.instr i, n - 1)
  | none =>
      match AnyInstr.read (b :: rest) with
      | .ok x => (.foreign x, x.length - 1)
      | .error .cutOff => (.lone b, 0)
      | .error .unknown => (.data b, 0)

def chunks (bs : List UInt8) : List Chunk :=
  match bs with
  | [] => []
  | b :: rest =>
      let (found, n) := frontOf b rest
      ⟨b :: rest.take n, found⟩ :: chunks (rest.drop n)
termination_by bs.length
decreasing_by
  simp only [List.length_drop, List.length_cons]
  omega

def byteText (b : UInt8) : String :=
  String.ofList (Text.hexByte b)

def Found.text (pc : UInt64) (length : Nat) : Found → String
  | instr i => i.text pc length
  | foreign x => x.text pc
  | lone b => Lead.loneText b
  | data b => "db 0x" ++ byteText b

def Chunk.text (c : Chunk) (pc : UInt64) : String :=
  let what := c.found.text pc c.bytes.length
  let bytes := Text.padRight 16 (" ".intercalate (c.bytes.map byteText)) ++ " "
  Text.hexPadded 4 pc.toNat ++ ": " ++
    match c.found with
    | .data _ => what
    | _ => bytes ++ what

def linesOf (pc : UInt64) : List Chunk → List String
  | [] => []
  | c :: cs => c.text pc :: linesOf (pc + c.bytes.length.toUInt64) cs

def listing (pc : UInt64) (code : List UInt8) : List String :=
  linesOf pc (chunks code)

def listingText (pc : UInt64) (code : List UInt8) : String :=
  String.join ((listing pc code).map fun line => line ++ "\n")

end Dynarec.Machine
