import Dynarec.Proofs.Machine.CodeBuffer
import Dynarec.Proofs.Machine.RoundTrip

/-!
# What is emitted is what was asked for

A code buffer is asked for instructions by operation, operand size, registers, memory operand and
constant. `decode_emit` says that the bytes it appends are read back as that instruction, whatever
stands behind them, and are all read, but for one operation: an arithmetic operation on two bytes with a
constant that does not fit in one byte is followed by two bytes that do not belong to it.
-/
namespace Dynarec.Machine

/-- What a code buffer can be asked for. -/
inductive Request where
  | moveReg (size : Size) (dst src : Reg)
  /-- A constant into a whole register. -/
  | moveImm (dst : Reg) (x : UInt64)
  | zeroExtend (size : Size) (dst : Reg) (src : Operand)
  | signExtend (size : Size) (dst : Reg) (src : Operand)
  | load (size : Size) (dst : Reg) (src : Mem)
  | store (size : Size) (dst : Mem) (src : Reg)
  | storeImm (size : Size) (dst : Operand) (x : Int32)
  | alu (op : AluOp) (size : Size) (dst : Reg) (src : Operand)
  | aluImm (op : AluOp) (size : Size) (dst : Operand) (x : Int32)
  | test (size : Size) (rm : Operand) (reg : Reg)
  | multiply (size : Size) (dst : Reg) (src : Operand)
  | unary (op : UnaryOp) (size : Size) (rm : Operand)
  | shiftCl (op : ShiftOp) (size : Size) (rm : Operand)
  | shiftImm (op : ShiftOp) (size : Size) (rm : Operand) (n : UInt8)
  | setcc (c : Cond) (rm : Operand)
  | cdq
  | cqo
  | lea (dst : Reg) (src : Mem)
  | push (r : Reg)
  | pop (r : Reg)
  | call (r : Reg)
  | ret
  | ud2
  /-- Jumps are emitted with no distance; it is filled in later. -/
  | jmp
  | jcc (c : Cond)
deriving DecidableEq

/-- Moves a constant into the whole of a register. -/
def Instr.SetsWhole (dst : Reg) : Instr → Prop
  | movImm32 r _ | movImm64 r _ | movImm .qword (.reg r) _ => r = dst
  | _ => False

/-- Constants that are the same for an operand: they agree in the bits that it has. -/
def Size.Agree (size : Size) (x y : Int32) : Prop :=
  x.toBitVec.signExtend size.bits = y.toBitVec.signExtend size.bits

namespace Request

def instr : Request → Except BadSize Instr
  | moveReg size dst src => .ok (.movTo size (.reg dst) src)
  | moveImm dst x => .ok (.loadImm dst x)
  | zeroExtend size dst src => Instr.zeroExtend size.bytes dst src
  | signExtend size dst src => .ok (.signExtend size.bytes dst src)
  | load size dst src => Instr.zeroExtend size.bytes dst (.mem src)
  | store size dst src => .ok (.movTo size (.mem dst) src)
  | storeImm size dst x => .ok (.movImm size dst x)
  | alu op size dst src => .ok (.alu op size dst src)
  | aluImm op size dst x => .ok (.aluImm op size dst x)
  | test size rm reg => .ok (.test size rm reg)
  | multiply size dst src => .ok (.multiply size.bytes dst src)
  | unary op size rm => .ok (.unary op size rm)
  | shiftCl op size rm => .ok (.shiftCl op size rm)
  | shiftImm op size rm n => .ok (.shiftImm op size rm n)
  | setcc c rm => .ok (.setcc c rm)
  | cdq => .ok .cdq
  | cqo => .ok .cqo
  | lea dst src => .ok (.lea dst src)
  | push r => .ok (.push r)
  | pop r => .ok (.pop r)
  | call r => .ok (.call r)
  | ret => .ok .ret
  | ud2 => .ok .ud2
  | jmp => .ok (.jmp 0)
  | jcc c => .ok (.jcc c 0)

/-- There are sixteen conditions, and no multiplication of bytes. -/
def IsValid : Request → Prop
  | multiply size _ _ => size ≠ .byte
  | setcc c _ | jcc c => c.code < 16
  | _ => True

/-- An extension to a whole register; `narrow` is the one from one or two bytes. -/
def IsExtension (narrow : Narrow → Instr) (dword qword : Instr) : Size → Instr → Prop
  | .byte, i => i = narrow .byte
  | .word, i => i = narrow .word
  | .dword, i => i = dword
  | .qword, i => i = qword

/-- Whether an instruction is the one that was asked for. -/
def Asks : Request → Instr → Prop
  | moveReg size dst src, i => i = .movTo size (.reg dst) src
  | moveImm dst x, i => i.SetsWhole dst ∧ ∀ s : State, i.exec s = .ok (s.setReg dst x)
  | zeroExtend size dst src, i =>
      IsExtension (.movzx · dst src) (.movFrom .dword dst src) (.movFrom .qword dst src) size i
  | signExtend size dst src, i =>
      IsExtension (.movsx · dst src) (.movsxd dst src) (.movFrom .qword dst src) size i
  | load size dst src, i =>
      IsExtension (.movzx · dst (.mem src)) (.movFrom .dword dst (.mem src))
        (.movFrom .qword dst (.mem src)) size i
  | store size dst src, i => i = .movTo size (.mem dst) src
  | storeImm size dst x, i => ∃ y, size.Agree y x ∧ i = .movImm size dst y
  | alu op size dst src, i => i = .alu op size dst src
  | aluImm op size dst x, i => ∃ y, size.Agree y x ∧ i = .aluImm op size dst y
  | test size rm reg, i => i = .test size rm reg
  | multiply size dst src, i => i = .imul size dst src
  | unary op size rm, i => i = .unary op size rm
  | shiftCl op size rm, i => i = .shiftCl op size rm
  | shiftImm op size rm n, i => i = .shiftImm op size rm n
  | setcc c rm, i => i = .setcc c rm
  | cdq, i => i = .cdq
  | cqo, i => i = .cqo
  | lea dst src, i => i = .lea dst src
  | push r, i => i = .push r
  | pop r, i => i = .pop r
  | call r, i => i = .call r
  | ret, i => i = .ret
  | ud2, i => i = .ud2
  | jmp, i => i = .jmp 0
  | jcc c, i => i = .jcc c 0

/-- The bytes that are emitted and do not belong to the instruction. -/
def surplus : Request → Nat
  | aluImm _ .word _ x => if Encode.fitsImm8 x then 0 else 2
  | _ => 0

/-- The instruction that is emitted has an encoding, and is read back as the one asked for. -/
structure Chooses (q : Request) (j : Instr) : Prop where
  instr : q.instr = .ok j
  hasForm : j.HasForm
  surplus : j.surplus = q.surplus
  asks : q.Asks j.cut

theorem chooses_moveImm (dst : Reg) (x : UInt64) :
    Chooses (.moveImm dst x) (.loadImm dst x) := by
  have hexec (s : State) := Instr.exec_loadImm dst x s
  -- neither form has a constant that is cut
  have hform : (Instr.loadImm dst x).cut = .loadImm dst x ∧ (Instr.loadImm dst x).HasForm ∧
      (Instr.loadImm dst x).surplus = 0 ∧ (Instr.loadImm dst x).SetsWhole dst := by
    unfold Instr.loadImm
    split_ifs <;> exact ⟨rfl, trivial, rfl, rfl⟩
  obtain ⟨hcut, hhas, hsurplus, hwhole⟩ := hform
  exact ⟨rfl, hhas, hsurplus, by rw [hcut]; exact ⟨hwhole, hexec⟩⟩

theorem exists_chooses {q : Request} (hq : q.IsValid) : ∃ j, Chooses q j := by
  cases q with
  | moveImm dst x => exact ⟨_, chooses_moveImm dst x⟩
  | zeroExtend size dst src | load size dst src =>
    cases size <;> exact ⟨_, rfl, trivial, rfl, rfl⟩
  | signExtend size dst src => cases size <;> exact ⟨_, rfl, trivial, rfl, rfl⟩
  | multiply size dst src =>
    cases size with
    | byte => exact absurd rfl hq
    | word | dword | qword => exact ⟨_, rfl, hq, rfl, rfl⟩
  | storeImm size dst x =>
    exact ⟨_, rfl, trivial, rfl, _, signExtend_readBack size false x, rfl⟩
  | aluImm op size dst x =>
    refine ⟨.aluImm op size dst x, rfl, trivial, ?_, _, signExtend_readBack size true x, rfl⟩
    cases size <;> rfl
  | setcc | jcc => exact ⟨_, rfl, hq, rfl, rfl⟩
  | _ => exact ⟨_, rfl, trivial, rfl, rfl⟩

end Request

open CodeBuffer

theorem CodeBuffer.appends_emit {b : CodeBuffer} (hb : b.Inside) (herror : b.error = none) {j : Instr}
    (hroom : b.offset + j.length ≤ b.capacity) : b.Appends j.encode (b.emit j) := by
  have hcode : [j].flatMap Instr.encode = j.encode := List.flatMap_singleton _ j
  rcases emitAll hb herror [j] with h | ⟨o, -, -, hfull⟩
  · rwa [hcode] at h
  · rw [hcode] at hfull
    exact absurd hroom (not_le.mpr hfull)

/-- The bytes that a request appends to a buffer are read back as the instruction that was asked for,
and all of them are read unless the constant of an operation on two bytes is too long for one. -/
theorem decode_emit {b : CodeBuffer} (hb : b.Inside) (herror : b.error = none) {q : Request}
    (hq : q.IsValid) :
    ∃ j, q.instr = .ok j ∧ (b.offset + j.length ≤ b.capacity →
      (b.emit j).error = none ∧
        ∃ i, q.Asks i ∧ ∀ rest,
          decode ((b.emit j).extract b.offset.toNat (b.emit j).offset.toNat ++ rest) =
            some (i, ((b.emit j).offset - b.offset).toNat - q.surplus)) := by
  obtain ⟨j, hj⟩ := Request.exists_chooses hq
  refine ⟨j, hj.instr, fun hroom => ?_⟩
  have happends := appends_emit hb herror hroom
  refine ⟨happends.error, j.cut, hj.asks, fun rest => ?_⟩
  have hlength : ((b.emit j).offset - b.offset).toNat = j.length := by
    rw [happends.offset, Instr.length]
    omega
  rw [happends.extract hb, hlength, ← hj.surplus, decode_encode hj.hasForm]

/-- A buffer with room for some instructions. -/
def emptyBuffer : CodeBuffer :=
  { capacity := 64 }

/-- A base that always has a displacement, and a byte that is named behind a REX prefix. -/
theorem decode_emit_store :
    ∃ j, (Request.store .byte ⟨.r13, 0⟩ .rsi).instr = .ok j ∧ (emptyBuffer.emit j).error = none ∧
      ∃ i, (Request.store .byte ⟨.r13, 0⟩ .rsi).Asks i ∧ ∀ rest,
        decode ((emptyBuffer.emit j).extract 0 (emptyBuffer.emit j).offset.toNat ++ rest) =
          some (i, ((emptyBuffer.emit j).offset - 0).toNat - 0) := by
  have hinside : emptyBuffer.Inside := ⟨by decide, by decide, by decide⟩
  obtain ⟨j, hj, hdecode⟩ :=
    decode_emit hinside rfl (show (Request.store .byte ⟨.r13, 0⟩ .rsi).IsValid from trivial)
  refine ⟨j, hj, hdecode ?_⟩
  obtain rfl := Except.ok.inj hj
  decide

/-- Of the seven bytes that are emitted five are read. -/
theorem decode_emit_long_constant :
    ((Request.aluImm .add .word (.reg .rax) 0x1234).instr.toOption.map fun j =>
      let b := emptyBuffer.emit j
      (b.error.isNone, b.offset, decode (b.extract 0 b.offset.toNat))) =
    some (true, 7, some (.aluImm .add .word (.reg .rax) 0x1234, 5)) := by
  decide +kernel

end Dynarec.Machine
