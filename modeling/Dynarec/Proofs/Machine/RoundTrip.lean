import Dynarec.Proofs.Machine.Cpu

/-!
# Decoding reads what encoding writes

Prefixes, operand bytes, displacements and constants are read back one after the other, and so is every
instruction that has an encoding of its own, whatever bytes follow it. Constants that are shorter than
the field they come from are read back cut to their length.
-/
namespace Dynarec.Machine

open Encode Decode List

variable {field : Field} {rm : Operand} {r : Reg} {x : Int32} {i : Instr} {size : Size}
  {opcode : UInt8} {p : Prefixes}

theorem modRm_fields {mode field rm : UInt8} (hmode : mode < 4) (hfield : field < 8) (hrm : rm < 8) :
    modRm mode field rm >>> 6 = mode ∧ modRm mode field rm >>> 3 &&& 7 = field ∧
      modRm mode field rm &&& 7 = rm := by
  have hall : ∀ a < 4, ∀ b < 8, ∀ c < 8,
      modRm (.ofNat a) (.ofNat b) (.ofNat c) >>> 6 = .ofNat a ∧
        modRm (.ofNat a) (.ofNat b) (.ofNat c) >>> 3 &&& 7 = .ofNat b ∧
        modRm (.ofNat a) (.ofNat b) (.ofNat c) &&& 7 = .ofNat c := by
    decide +kernel
  simpa using hall mode.toNat hmode field.toNat hfield rm.toNat hrm

namespace Reg

theorem low_lt (r : Reg) : r.low < 8 := by
  cases r <;> decide

theorem extend_low (r : Reg) : extend r.isExtended r.low = r := by
  cases r <;> decide

end Reg

section Constants

/-- A constant that fits in a byte survives being cut to a byte or to more. -/
theorem toInt_setWidth_of_fitsImm8 (h : fitsImm8 x = true) {n : Nat} (hn : 8 ≤ n) (hn' : n ≤ 32) :
    (x.toBitVec.setWidth n).toInt = x.toBitVec.toInt := by
  have hrange : -128 ≤ x.toBitVec.toInt ∧ x.toBitVec.toInt ≤ 127 := by
    simpa [fitsImm8, Int32.le_iff_toInt_le] using h
  have hpow : (2 ^ 8 : Nat) ≤ 2 ^ n := Nat.pow_le_pow_right (by decide) hn
  rw [BitVec.toInt_setWidth, ← Int.bmod_bmod_of_dvd (Nat.pow_dvd_pow 2 hn'),
    ← BitVec.toInt_eq_toNat_bmod]
  exact Int.bmod_eq_of_le (by omega) (by omega)

theorem imm8?_low (h : fitsImm8 x = true) (rest : List UInt8) :
    imm8? (x.toUInt32.toUInt8 :: rest) = some (x, rest) := by
  have hx : x.toUInt32.toUInt8.toInt8.toInt32 = x := by
    apply Int32.toInt_inj.mp
    rw [Int8.toInt_toInt32]
    show x.toUInt32.toUInt8.toBitVec.toInt = x.toBitVec.toInt
    rw [UInt32.toBitVec_toUInt8]
    exact toInt_setWidth_of_fitsImm8 h (by decide) (by decide)
  rw [imm8?, hx]

theorem word32_imm32 (x : UInt32) :
    word32 x.toUInt8 (x >>> 8).toUInt8 (x >>> 16).toUInt8 (x >>> 24).toUInt8 = x := by
  apply UInt32.toBitVec_inj.mp
  simp only [word32, UInt32.toBitVec_or, UInt32.toBitVec_shiftLeft, UInt8.toBitVec_toUInt32,
    UInt32.toBitVec_toUInt8, UInt32.toBitVec_shiftRight]
  ext i hi
  simp [-BitVec.setWidth_eq]
  interval_cases i <;> simp

theorem imm32?_imm32 (x : Int32) (rest : List UInt8) :
    imm32? (imm32 x.toUInt32 ++ rest) = some (x, rest) := by
  simp [imm32, imm32?, word32_imm32]

theorem imm16?_imm16 (x : UInt16) (rest : List UInt8) :
    imm16? (imm16 x ++ rest) = some (x.toInt16.toInt32, rest) := by
  have hx : x.toUInt8.toUInt16 ||| (x >>> 8).toUInt8.toUInt16 <<< 8 = x := by
    apply UInt16.toBitVec_inj.mp
    simp only [UInt16.toBitVec_or, UInt16.toBitVec_shiftLeft, UInt8.toBitVec_toUInt16,
      UInt16.toBitVec_toUInt8, UInt16.toBitVec_shiftRight]
    ext i hi
    simp [-BitVec.setWidth_eq]
    interval_cases i <;> simp
  rw [imm16, cons_append, cons_append, nil_append, imm16?, hx]

theorem low_word_of_fitsImm8 (h : fitsImm8 x = true) : x.toUInt32.toUInt16.toInt16.toInt32 = x := by
  apply Int32.toInt_inj.mp
  rw [Int16.toInt_toInt32]
  show x.toUInt32.toUInt16.toBitVec.toInt = x.toBitVec.toInt
  rw [UInt32.toBitVec_toUInt16]
  exact toInt_setWidth_of_fitsImm8 h (by decide) (by decide)

theorem toWordLE_imm64 (x : UInt64) : Bytes.toWordLE (imm64 x) = x := by
  apply UInt64.toNat_inj.mp
  rw [imm64, Bytes.toNat_toWordLE_ofWordLE]
  exact Nat.mod_eq_of_lt x.toNat_lt

/-- A constant of an operand, cut to its length, as decoding gives it. -/
def Size.readBack (signedByte : Bool) (x : Int32) : Size → Int32
  | byte => if signedByte then x.toUInt32.toUInt8.toInt8.toInt32
      else x.toUInt32.toUInt8.toUInt32.toInt32
  | word => x.toUInt32.toUInt16.toInt16.toInt32
  | dword | qword => x

theorem setWidth_signExtend_setWidth (y : BitVec 32) {n : Nat} (hn : n ≤ 32) :
    ((y.setWidth n).signExtend 32).setWidth n = y.setWidth n := by
  ext i hi
  have hi' : i < 32 := hi.trans_le hn
  simp only [BitVec.getElem_setWidth, BitVec.getLsbD_signExtend, BitVec.getLsbD_setWidth, hi, hi',
    decide_true, if_true, Bool.true_and]

theorem signExtend_readBack (size : Size) (signedByte : Bool) (x : Int32) :
    (size.readBack signedByte x).toBitVec.signExtend size.bits = x.toBitVec.signExtend size.bits := by
  cases size with
  | byte =>
    have hsigned : x.toUInt32.toUInt8.toInt8.toInt32.toBitVec =
        (x.toBitVec.setWidth 8).signExtend 32 := by
      show x.toUInt32.toUInt8.toBitVec.signExtend 32 = _
      rw [UInt32.toBitVec_toUInt8]
      rfl
    have hunsigned : x.toUInt32.toUInt8.toUInt32.toInt32.toBitVec =
        (x.toBitVec.setWidth 8).setWidth 32 := by
      show x.toUInt32.toUInt8.toUInt32.toBitVec = _
      rw [UInt8.toBitVec_toUInt32, UInt32.toBitVec_toUInt8]
      rfl
    have hn : (8 : Nat) ≤ 32 := by decide
    rw [Size.bits, BitVec.signExtend_eq_setWidth_of_le _ hn, BitVec.signExtend_eq_setWidth_of_le _ hn]
    cases signedByte with
    | false =>
      show x.toUInt32.toUInt8.toUInt32.toInt32.toBitVec.setWidth 8 = _
      rw [hunsigned, BitVec.setWidth_setWidth_of_le _ hn, BitVec.setWidth_eq]
    | true =>
      show x.toUInt32.toUInt8.toInt8.toInt32.toBitVec.setWidth 8 = _
      rw [hsigned, setWidth_signExtend_setWidth _ hn]
  | word =>
    have hword : x.toUInt32.toUInt16.toInt16.toInt32.toBitVec =
        (x.toBitVec.setWidth 16).signExtend 32 := by
      show x.toUInt32.toUInt16.toBitVec.signExtend 32 = _
      rw [UInt32.toBitVec_toUInt16]
      rfl
    have hn : (16 : Nat) ≤ 32 := by decide
    rw [Size.bits, BitVec.signExtend_eq_setWidth_of_le _ hn, BitVec.signExtend_eq_setWidth_of_le _ hn,
      Size.readBack, hword, setWidth_signExtend_setWidth _ hn]
  | dword | qword => rfl

end Constants

section Prefixes

/-- The prefixes in front of an operation that has a field and an operand. -/
def prefixesFor (word wide : Bool) (field : Field) (rm : Operand) (force : Bool) : Prefixes :=
  let bits := rexBits wide field.isExtended rm.base.isExtended
  ⟨word, if bits != 0 || force then some (0x40 ||| bits) else none⟩

variable (word wide : Bool) (field : Field) (rm : Operand) (force : Bool) (rest : List UInt8)

theorem bits_prefixesFor :
    (prefixesFor word wide field rm force).wide = wide ∧
      (prefixesFor word wide field rm force).extendedField = field.isExtended ∧
      (prefixesFor word wide field rm force).extendedBase = rm.base.isExtended ∧
      (prefixesFor word wide field rm force).bit 2 = false := by
  unfold prefixesFor
  generalize field.isExtended = f
  generalize rm.base.isExtended = b
  cases word <;> cases wide <;> cases f <;> cases b <;> cases force <;> decide

theorem size_prefixesFor :
    (prefixesFor word wide field rm force).size =
      if wide then .qword else if word then .word else .dword := by
  rw [Prefixes.size, (bits_prefixesFor word wide field rm force).1]
  rfl

theorem rex_isSome_of_force : (prefixesFor word wide field rm true).rex.isSome = true := by
  simp [prefixesFor]

/-- A byte that is taken for an opcode and not for a prefix. -/
def IsOpcode (x : UInt8) : Prop :=
  x ≠ 0x66 ∧ x &&& 0xf0 ≠ 0x40

instance (x : UInt8) : Decidable (IsOpcode x) :=
  inferInstanceAs (Decidable (_ ∧ _))

theorem takePrefixes_opcode {x : UInt8} (hx : IsOpcode x) :
    takePrefixes (x :: rest) = (⟨false, none⟩, x :: rest) := by
  simp [takePrefixes, hx.1, hx.2]

/-- Without a REX byte the opcode decides, with one it is not looked at. -/
theorem takePrefixes_rex (hopcode : IsOpcode opcode) :
    takePrefixes ((if word then [[0x66]] else [] : List (List UInt8)).flatten ++
        ((rex wide field rm force).flatten ++ opcode :: rest)) =
      (prefixesFor word wide field rm force, opcode :: rest) := by
  have hnone : takePrefixes (0x66 :: opcode :: rest) = (⟨true, none⟩, opcode :: rest) := by
    simp [takePrefixes, hopcode.2]
  unfold rex prefixesFor
  generalize field.isExtended = f
  generalize rm.base.isExtended = b
  cases word <;> cases wide <;> cases f <;> cases b <;> cases force <;>
    first
      | rfl
      | exact takePrefixes_opcode rest hopcode
      | exact hnone

theorem memMode_cases (m : Mem) :
    (memMode m = 0 ∧ m.disp = 0 ∧ m.base.low ≠ 5) ∨ (memMode m = 1 ∧ fitsImm8 m.disp = true) ∨
      (memMode m = 2 ∧ fitsImm8 m.disp = false) := by
  unfold memMode
  split_ifs with h0 h1
  · simp only [Bool.and_eq_true, beq_iff_eq, bne_iff_ne] at h0
    exact Or.inl ⟨rfl, h0⟩
  · exact Or.inr (Or.inl ⟨rfl, h1⟩)
  · exact Or.inr (Or.inr ⟨rfl, by simpa using h1⟩)

/-- A displacement as `operand` writes it. -/
def dispBytes (m : Mem) : List UInt8 :=
  (if memMode m == 1 then [[m.disp.toUInt32.toUInt8]]
    else if memMode m == 2 then [imm32 m.disp.toUInt32] else []).flatten

theorem flatten_operand_mem (m : Mem) :
    (operand field (.mem m)).flatten = modRm (memMode m) field.bits m.base.low ::
      ((if m.base.low = 4 then [0x24] else []) ++ dispBytes m) := by
  unfold operand dispBytes
  split_ifs <;> simp_all

theorem disp?_dispBytes (m : Mem) : disp? (memMode m) (dispBytes m ++ rest) = some (m.disp, rest) := by
  unfold dispBytes disp?
  rcases memMode_cases m with ⟨hmode, h0, -⟩ | ⟨hmode, hfits⟩ | ⟨hmode, hfits⟩
  · simp [hmode, h0]
  · simp [hmode, imm8?_low hfits]
  · simp [hmode, imm32?_imm32, hfits]

theorem operands?_operand (hfield : field.bits < 8) (hbase : p.extendedBase = rm.base.isExtended)
    (hindex : p.bit 2 = false) :
    operands? p ((operand field rm).flatten ++ rest) = some (⟨field.bits, rm⟩, rest) := by
  cases rm with
  | reg r =>
    obtain ⟨hmode, hf, hlow⟩ := modRm_fields (show (3 : UInt8) < 4 by decide) hfield r.low_lt
    simp only [operand, flatten_cons, flatten_nil, append_nil, cons_append,
      nil_append, operands?, hmode, hf, hlow, if_true, hbase]
    rw [Operand.base, r.extend_low]
  | mem m =>
    have hlt : memMode m < 4 ∧ memMode m ≠ 3 := by
      rcases memMode_cases m with ⟨h, -⟩ | ⟨h, -⟩ | ⟨h, -⟩ <;> rw [h] <;> decide
    have h5 : ¬ (memMode m = 0 ∧ m.base.low = 5) := by
      rintro ⟨hmode, hlow⟩
      rcases memMode_cases m with ⟨-, -, hne⟩ | ⟨h, -⟩ | ⟨h, -⟩
      · exact hne hlow
      · simp [h] at hmode
      · simp [h] at hmode
    obtain ⟨hmode, hf, hlow⟩ := modRm_fields hlt.1 hfield m.base.low_lt
    have hdisp := disp?_dispBytes rest m
    simp only [Operand.base] at hbase
    rw [flatten_operand_mem]
    generalize modRm (memMode m) field.bits m.base.low = x at hmode hf hlow
    by_cases h4 : m.base.low = 4
    · have hreg := m.base.extend_low
      rw [h4] at h5 hlow hreg
      simp [operands?, hmode, hf, hlow, hlt.2, h4, hbase, hindex, hdisp, hreg]
    · simp [operands?, hmode, hf, hlow, hlt.2, h4, h5, hbase, hdisp, m.base.extend_low]

theorem operands?_prefixesFor (hfield : field.bits < 8) :
    operands? (prefixesFor word wide field rm force) ((operand field rm).flatten ++ rest) =
      some (⟨field.bits, rm⟩, rest) := by
  obtain ⟨-, -, hbase, hindex⟩ := bits_prefixesFor word wide field rm force
  exact operands?_operand field rm rest hfield hbase hindex

theorem operands?_digit {n : UInt8} (hn : n < 8) :
    operands? (prefixesFor word wide (.digit n) rm force)
      ((operand (.digit n) rm).flatten ++ rest) = some (⟨n, rm⟩, rest) :=
  operands?_prefixesFor word wide (.digit n) rm force rest hn

theorem operands?_reg (r : Reg) :
    operands? (prefixesFor word wide (.reg r) rm force) ((operand (.reg r) rm).flatten ++ rest) =
      some (⟨r.low, rm⟩, rest) :=
  operands?_prefixesFor word wide (.reg r) rm force rest r.low_lt

theorem fieldReg_prefixesFor (r : Reg) :
    fieldReg (prefixesFor word wide (.reg r) rm force) r.low = r := by
  rw [fieldReg, (bits_prefixesFor _ _ _ _ _).2.1]
  exact r.extend_low

theorem byteNamedRm_prefixesFor :
    byteNamedRm (prefixesFor word wide field rm rm.needsRexByte) .byte rm = true := by
  cases rm with
  | reg r =>
    by_cases hr : r.needsRexByte = true
    · simp [byteNamedRm, byteNamed, Operand.needsRexByte, hr, rex_isSome_of_force]
    · simp [byteNamedRm, byteNamed, hr]
  | mem m => rfl

end Prefixes

section Sized

variable {rest : List UInt8}

/-- The opcode of an operation with an operand size. -/
def opcodeFor (size : Size) (opcode : UInt8) : UInt8 :=
  if size == .byte then opcode - 1 else opcode

def prefixesOf (size : Size) (field : Field) (rm : Operand) : Prefixes :=
  prefixesFor (size == .word) (size == .qword) field rm
    (size == .byte && (field.needsRexByte || rm.needsRexByte))

theorem takePrefixes_sized (field : Field) (rm : Operand)
    (hopcode : IsOpcode (opcodeFor size opcode)) (rest : List UInt8) :
    takePrefixes ((sized size field rm opcode).flatten ++ rest) = (prefixesOf size field rm,
      opcodeFor size opcode :: ((operand field rm).flatten ++ rest)) := by
  rw [prefixesOf, ← takePrefixes_rex _ _ _ _ _ _ hopcode]
  simp [sized, opcodeFor]

theorem sizeOf_opcodeFor (hodd : opcode &&& 1 = 1) :
    (prefixesOf size field rm).sizeOf (opcodeFor size opcode) = size := by
  have heven : (opcode - 1) &&& 1 = 0 := by
    have hlow : opcode.toNat % 2 = 1 := by
      simpa [Nat.and_one_is_mod] using congrArg UInt8.toNat hodd
    apply UInt8.toNat_inj.mp
    rw [UInt8.toNat_and, UInt8.toNat_sub, show (1 : UInt8).toNat = 1 from rfl, Nat.and_one_is_mod]
    show _ = 0
    omega
  unfold Prefixes.sizeOf opcodeFor prefixesOf
  rw [size_prefixesFor]
  cases size <;> simp [hodd, heven]

theorem byteNamed_prefixesOf
    (hr : r.needsRexByte = true → field.needsRexByte = true ∨ rm.needsRexByte = true) :
    byteNamed (prefixesOf size field rm) size r = true := by
  by_cases hsize : size = .byte
  · by_cases hrex : r.needsRexByte = true
    · have hforce : (field.needsRexByte || rm.needsRexByte) = true := by simpa using hr hrex
      simp [byteNamed, prefixesOf, hsize, hforce, rex_isSome_of_force]
    · simp [byteNamed, hrex]
  · simp [byteNamed, hsize]

theorem byteNamedRm_prefixesOf : byteNamedRm (prefixesOf size field rm) size rm = true := by
  cases rm with
  | reg r => exact byteNamed_prefixesOf fun h => Or.inr h
  | mem m => rfl

theorem regRm_sized (hodd : opcode &&& 1 = 1) (make : Size → Reg → Operand → Instr) :
    regRm (prefixesOf size (.reg r) rm) (opcodeFor size opcode)
      ((operand (.reg r) rm).flatten ++ rest) make = some (make size r rm, rest) := by
  have hr : byteNamed (prefixesOf size (.reg r) rm) size r = true :=
    byteNamed_prefixesOf fun h => Or.inl h
  have hfield : fieldReg (prefixesOf size (.reg r) rm) r.low = r := fieldReg_prefixesFor ..
  have hread : operands? (prefixesOf size (.reg r) rm) ((operand (.reg r) rm).flatten ++ rest) =
      some (⟨r.low, rm⟩, rest) := operands?_reg ..
  simp [regRm, hread, sizeOf_opcodeFor hodd, hfield, hr, byteNamedRm_prefixesOf]

theorem digitRm_sized {n : UInt8} (hodd : opcode &&& 1 = 1) (hn : n < 8)
    (make : Size → UInt8 → Operand → List UInt8 → Option (Instr × List UInt8)) :
    digitRm (prefixesOf size (.digit n) rm) (opcodeFor size opcode)
      ((operand (.digit n) rm).flatten ++ rest) make = make size n rm rest := by
  have hread : operands? (prefixesOf size (.digit n) rm)
      ((operand (.digit n) rm).flatten ++ rest) = some (⟨n, rm⟩, rest) := operands?_digit _ _ _ _ _ hn
  simp [digitRm, hread, sizeOf_opcodeFor hodd, byteNamedRm_prefixesOf]

end Sized

namespace Instr

/-- Whether there is an encoding for the instruction: conditions have four bits, and there is no
multiplication of bytes. -/
def HasForm : Instr → Prop
  | imul size _ _ => size ≠ .byte
  | setcc c _ => c.code < 16
  | jcc c _ => c.code < 16
  | _ => True

/-- The instruction with its constant cut to its operand. -/
def cut : Instr → Instr
  | movImm size dst x => movImm size dst (size.readBack false x)
  | aluImm op size dst x => aluImm op size dst (size.readBack true x)
  | i => i

/-- The bytes of the encoding that are not read as a part of the instruction. A constant of an operation
on two bytes is read from two bytes; where it does not fit in one byte, four are written. -/
def surplus : Instr → Nat
  | aluImm _ .word _ x => if fitsImm8 x then 0 else 2
  | _ => 0

end Instr

/-- The bytes are read as the instruction, whatever follows them. -/
def ReadAs (bs : List UInt8) (i : Instr) : Prop :=
  ∀ rest, decode (bs ++ rest) = some (i, bs.length)

theorem decode_of_opcode {bs tail rest : List UInt8} (hp : takePrefixes (bs ++ rest) = (p, tail))
    (hi : opcode? p tail = some (i, rest)) : decode (bs ++ rest) = some (i, bs.length) := by
  simp [decode, hp, hi]

section Forms

variable {bs : List UInt8}

/-- An operation with a register and an operand of the same size. -/
theorem readAs_regRm (hopcode : IsOpcode (opcodeFor size opcode)) (hodd : opcode &&& 1 = 1)
    (f : Size → Reg → Operand → Instr)
    (hf : ∀ p bs, opcode? p (opcodeFor size opcode :: bs) = regRm p (opcodeFor size opcode) bs f) :
    ReadAs (sized size (.reg r) rm opcode).flatten (f size r rm) := by
  intro rest
  refine decode_of_opcode (takePrefixes_sized (.reg r) rm hopcode rest) ?_
  rw [hf, regRm_sized hodd]

/-- An operation that stands in the register field, perhaps with a constant behind the operand. -/
theorem readAs_digitRm (size : Size) (rm : Operand) (n opcode : UInt8) (imm : List UInt8)
    (hopcode : IsOpcode (opcodeFor size opcode)) (hodd : opcode &&& 1 = 1) (hn : n < 8)
    (f : Size → UInt8 → Operand → List UInt8 → Option (Instr × List UInt8))
    (hf : ∀ p bs, opcode? p (opcodeFor size opcode :: bs) =
      digitRm p (opcodeFor size opcode) bs f)
    (hbs : bs = (sized size (.digit n) rm opcode).flatten ++ imm)
    (hi : ∀ rest, f size n rm (imm ++ rest) = some (i, rest)) : ReadAs bs i := by
  intro rest
  have hp := takePrefixes_sized (.digit n) rm hopcode (imm ++ rest)
  rw [← append_assoc, ← hbs] at hp
  refine decode_of_opcode hp ?_
  rw [hf, digitRm_sized hodd hn, hi]

/-- An operation with one opcode and no byte form. -/
theorem readAs_rex (wide : Bool) (field : Field) (rm : Operand) (opcode : UInt8)
    (tail : List UInt8) (hopcode : IsOpcode opcode)
    (hbs : bs = (rex wide field rm false).flatten ++ opcode :: tail)
    (hi : ∀ rest, opcode? (prefixesFor false wide field rm false) (opcode :: (tail ++ rest)) =
      some (i, rest)) : ReadAs bs i := by
  intro rest
  have hp := takePrefixes_rex false wide field rm false (tail ++ rest) hopcode
  refine decode_of_opcode ?_ (hi rest)
  rw [← hp, hbs]
  simp

/-- An operation with a two-byte opcode. -/
theorem readAs_extended (word wide : Bool) (field : Field) (rm : Operand) (force : Bool)
    (opcode : UInt8)
    (hbs : bs = (if word then [[0x66]] else [] : List (List UInt8)).flatten ++
      (extended wide field rm force opcode).flatten)
    (hi : ∀ rest, twoByte (prefixesFor word wide field rm force)
      (opcode :: ((operand field rm).flatten ++ rest)) = some (i, rest)) : ReadAs bs i := by
  intro rest
  have hp := takePrefixes_rex word wide field rm force
    (opcode :: ((operand field rm).flatten ++ rest)) (show IsOpcode 0x0f by decide)
  have hi' : opcode? (prefixesFor word wide field rm force)
      (0x0f :: opcode :: ((operand field rm).flatten ++ rest)) = some (i, rest) := hi rest
  refine decode_of_opcode ?_ hi'
  rw [← hp, hbs]
  simp [extended]

/-- An operation that names its register in the opcode. -/
theorem readAs_short (wide : Bool) (r : Reg) (opcode : UInt8) (imm : List UInt8)
    (hopcode : IsOpcode (opcode + r.low)) (hbs : bs = (short wide r opcode).flatten ++ imm)
    (hi : ∀ rest, opcode? (prefixesFor false wide (.digit 0) (.reg r) false)
      ((opcode + r.low) :: (imm ++ rest)) = some (i, rest)) : ReadAs bs i := by
  refine readAs_rex wide (.digit 0) (.reg r) (opcode + r.low) imm hopcode ?_ hi
  rw [hbs]
  simp [short]

theorem readAs_plain (x : UInt8) (bs : List UInt8) (hopcode : IsOpcode x)
    (hi : ∀ rest, opcode? ⟨false, none⟩ (x :: (bs ++ rest)) = some (i, rest)) :
    ReadAs (x :: bs) i := fun rest =>
  decode_of_opcode (takePrefixes_opcode _ hopcode) (hi rest)

end Forms

namespace Instr

variable {c : Cond}

/-- The instruction is read as itself. -/
def ReadsBack (i : Instr) : Prop :=
  ReadAs i.encode i

theorem aluOp?_digit (op : AluOp) : aluOp? op.digit = some op := by
  cases op <;> decide

theorem unaryOp?_digit (op : UnaryOp) : unaryOp? op.digit = some op := by
  cases op <;> decide

theorem shiftOp?_digit (op : ShiftOp) : shiftOp? op.digit = some op := by
  cases op <;> decide

theorem cond_opcode {base : UInt8} (hbase : base = 0x80 ∨ base = 0x90) (hc : c.code < 16) :
    base + c.code ≠ 0x0b ∧ (base + c.code) &&& 0xf0 = base ∧ (base + c.code) &&& 15 = c.code := by
  have hall : ∀ n < 16, (0x80 + UInt8.ofNat n ≠ 0x0b ∧ (0x80 + UInt8.ofNat n) &&& 0xf0 = 0x80 ∧
      (0x80 + UInt8.ofNat n) &&& 15 = .ofNat n) ∧ (0x90 + UInt8.ofNat n ≠ 0x0b ∧
      (0x90 + UInt8.ofNat n) &&& 0xf0 = 0x90 ∧ (0x90 + UInt8.ofNat n) &&& 15 = .ofNat n) := by
    decide +kernel
  obtain ⟨h8, h9⟩ := hall c.code.toNat hc
  rw [UInt8.ofNat_toNat] at h8 h9
  rcases hbase with rfl | rfl
  · exact h8
  · exact h9

/-- The operation in the register field. -/
def unaryOf (size : Size) (digit : UInt8) (rm : Operand) (rest : List UInt8) :
    Option (Instr × List UInt8) := do
  let op ← unaryOp? digit
  return (.unary op size rm, rest)

theorem readsBack_unary (op : UnaryOp) : (unary op size rm).ReadsBack := by
  have hn : op.digit < 8 := by cases op <;> decide
  cases size <;>
    exact readAs_digitRm _ rm op.digit 0xf7 [] (by decide) (by decide) hn unaryOf (fun _ _ => rfl)
      (append_nil _).symm fun _ => by simp [unaryOf, unaryOp?_digit]

/-- The shift in the register field. -/
def shiftClOf (size : Size) (digit : UInt8) (rm : Operand) (rest : List UInt8) :
    Option (Instr × List UInt8) := do
  let op ← shiftOp? digit
  return (.shiftCl op size rm, rest)

theorem readsBack_shiftCl (op : ShiftOp) : (shiftCl op size rm).ReadsBack := by
  have hn : op.digit < 8 := by cases op <;> decide
  cases size <;>
    exact readAs_digitRm _ rm op.digit 0xd3 [] (by decide) (by decide) hn shiftClOf (fun _ _ => rfl)
      (append_nil _).symm fun _ => by simp [shiftClOf, shiftOp?_digit]

/-- The shift in the register field, and the distance behind the operand. -/
def shiftImmOf (size : Size) (digit : UInt8) (rm : Operand) (rest : List UInt8) :
    Option (Instr × List UInt8) := do
  let op ← shiftOp? digit
  match rest with
  | n :: rest => return (.shiftImm op size rm n, rest)
  | [] => none

theorem readsBack_shiftImm (op : ShiftOp) (n : UInt8) : (shiftImm op size rm n).ReadsBack := by
  have hn : op.digit < 8 := by cases op <;> decide
  cases size <;>
    exact readAs_digitRm _ rm op.digit 0xc1 [n] (by decide) (by decide) hn shiftImmOf
      (fun _ _ => rfl) flatten_append fun _ => by simp [shiftImmOf, shiftOp?_digit]

/-- Nothing but zero in the register field, and a constant as long as the operand. -/
def movImmOf (size : Size) (digit : UInt8) (rm : Operand) (rest : List UInt8) :
    Option (Instr × List UInt8) := do
  let (x, rest) ← immOf size false rest
  if digit = 0 then return (.movImm size rm x, rest) else none

theorem readAs_movImm (x : Int32) :
    ReadAs (movImm size rm x).encode (movImm size rm x).cut := by
  cases size with
  | byte =>
    exact readAs_digitRm .byte rm 0 0xc7 [x.toUInt32.toUInt8] (by decide) (by decide) (by decide)
      movImmOf (fun _ _ => rfl) flatten_append fun _ => rfl
  | word =>
    exact readAs_digitRm .word rm 0 0xc7 (imm16 x.toUInt32.toUInt16) (by decide) (by decide)
      (by decide) movImmOf (fun _ _ => rfl) flatten_append
      fun _ => by simp [movImmOf, immOf, imm16?_imm16, cut, Size.readBack]
  | dword | qword =>
    exact readAs_digitRm _ rm 0 0xc7 (imm32 x.toUInt32) (by decide) (by decide) (by decide)
      movImmOf (fun _ _ => rfl) flatten_append
      fun _ => by simp [movImmOf, immOf, imm32?_imm32, cut, Size.readBack]

/-- The operation in the register field, with a constant as long as the operand. -/
def aluImmOf (signed : List UInt8 → Option (Int32 × List UInt8)) (size : Size) (digit : UInt8)
    (rm : Operand) (rest : List UInt8) : Option (Instr × List UInt8) := do
  let op ← aluOp? digit
  let (x, rest) ← signed rest
  return (.aluImm op size rm x, rest)

/-- A constant that fits in a byte has a shorter form. -/
theorem readsBack_aluImm (op : AluOp) (hsize : size ≠ .byte) (hfits : fitsImm8 x = true) :
    (aluImm op size rm x).ReadsBack := by
  have hn : op.digit < 8 := by cases op <;> decide
  have hfull : opcodeFor size 0x83 = 0x83 := by simp [opcodeFor, hsize]
  exact readAs_digitRm size rm op.digit 0x83 [x.toUInt32.toUInt8] (by rw [hfull]; decide)
    (by decide) hn (aluImmOf imm8?) (fun _ _ => by rw [hfull]; rfl)
    (by simp [encode, pieces, hsize, hfits])
    fun _ => by simp [aluImmOf, aluOp?_digit, imm8?_low hfits]

/-- Of the four bytes of a constant the first two are read if the operand has two. -/
theorem imm32_eq_imm16_append (x : UInt32) :
    imm32 x = imm16 x.toUInt16 ++ imm16 (x >>> 16).toUInt16 := by
  have h8 : (x.toUInt16 >>> 8).toUInt8 = (x >>> 8).toUInt8 := by
    apply UInt8.toNat_inj.mp
    simp [Nat.shiftRight_eq_div_pow]
    omega
  have h24 : ((x >>> 16).toUInt16 >>> 8).toUInt8 = (x >>> 24).toUInt8 := by
    apply UInt8.toNat_inj.mp
    simp [Nat.shiftRight_eq_div_pow]
    omega
  simp [imm32, imm16, h8, h24]

/-- A constant that does not fit in a byte is read with the length of the operand. -/
theorem decode_aluImm_long (op : AluOp) {y : Int32} {imm surplus : List UInt8}
    (hbyte : size = .byte ∨ fitsImm8 x = false)
    (himm : (if size = .byte then [x.toUInt32.toUInt8] else imm32 x.toUInt32) = imm ++ surplus)
    (hy : ∀ rest, immOf size true (imm ++ rest) = some (y, rest)) (rest : List UInt8) :
    decode ((aluImm op size rm x).encode ++ rest) =
      some (aluImm op size rm y, (aluImm op size rm x).length - surplus.length) := by
  have hn : op.digit < 8 := by cases op <;> decide
  have hencode : (aluImm op size rm x).encode =
      ((sized size (.digit op.digit) rm 0x81).flatten ++ imm) ++ surplus := by
    rw [append_assoc, ← himm, encode, pieces]
    rcases hbyte with rfl | hfits
    · simp
    · by_cases hsize : size = .byte
      · simp [hsize]
      · simp [hsize, hfits]
  have hread : ReadAs ((sized size (.digit op.digit) rm 0x81).flatten ++ imm)
      (aluImm op size rm y) :=
    readAs_digitRm size rm op.digit 0x81 imm (by cases size <;> decide) (by decide) hn
      (fun size => aluImmOf (immOf size true) size) (fun _ _ => by cases size <;> rfl) rfl
      fun rest => by simp [aluImmOf, aluOp?_digit, hy]
  rw [length, hencode, append_assoc, hread]
  simp only [length_append, Nat.add_sub_cancel]

theorem decode_aluImm (op : AluOp) (x : Int32) (rest : List UInt8) :
    decode ((aluImm op size rm x).encode ++ rest) = some ((aluImm op size rm x).cut,
      (aluImm op size rm x).length - (aluImm op size rm x).surplus) := by
  by_cases hbyte : size = .byte
  · subst hbyte
    exact decode_aluImm_long op (Or.inl rfl) (append_nil _).symm (fun _ => rfl) rest
  by_cases hfits : fitsImm8 x = true
  · rw [readsBack_aluImm op hbyte hfits]
    cases size with
    | byte => exact absurd rfl hbyte
    | word => simp [cut, Size.readBack, surplus, length, hfits, low_word_of_fitsImm8 hfits]
    | dword | qword => rfl
  have hlong : size = .byte ∨ fitsImm8 x = false := Or.inr (by simpa using hfits)
  cases size with
  | byte => exact absurd rfl hbyte
  | word =>
    rw [decode_aluImm_long op hlong (imm32_eq_imm16_append x.toUInt32) (imm16?_imm16 _)]
    simp [cut, Size.readBack, surplus, hfits, imm16]
  | dword | qword =>
    exact decode_aluImm_long op hlong (append_nil _).symm (imm32?_imm32 x) rest

theorem readsBack_movzx (n : Narrow) (dst : Reg) : (movzx n dst rm).ReadsBack := by
  have hsize (force : Bool) := size_prefixesFor false false (.reg dst) rm force
  have hbyte := byteNamedRm_prefixesFor false false (.reg dst) rm
  simp only [Bool.false_eq_true, if_false] at hsize
  cases n <;>
    refine readAs_extended false false (.reg dst) rm _ _ rfl fun rest => ?_ <;>
    simp +decide [twoByte, operands?_reg, fieldReg_prefixesFor, hsize, narrowByte, hbyte]

theorem readsBack_movsx (n : Narrow) (dst : Reg) : (movsx n dst rm).ReadsBack := by
  have hwide (force : Bool) := (bits_prefixesFor false true (.reg dst) rm force).1
  have hbyte := byteNamedRm_prefixesFor false true (.reg dst) rm
  cases n <;>
    refine readAs_extended false true (.reg dst) rm _ _ rfl fun rest => ?_ <;>
    simp +decide [twoByte, operands?_reg, fieldReg_prefixesFor, hwide, narrowByte, hbyte]

theorem readsBack_imul (hsize : size ≠ .byte) (dst : Reg) : (imul size dst rm).ReadsBack := by
  have hreg := fieldReg_prefixesFor (size == .word) (size == .qword) rm false dst
  have hp := size_prefixesFor (size == .word) (size == .qword) (.reg dst) rm false
  refine readAs_extended (size == .word) (size == .qword) (.reg dst) rm false 0xaf
    flatten_append fun rest => ?_
  have hread := operands?_reg (size == .word) (size == .qword) rm false rest dst
  cases size <;> simp_all +decide [twoByte]

theorem readsBack_setcc (hc : c.code < 16) : (setcc c rm).ReadsBack := by
  have hbyte := byteNamedRm_prefixesFor false false (.digit 0) rm
  have hread := operands?_digit false false rm rm.needsRexByte (n := 0)
  refine readAs_extended false false (.digit 0) rm rm.needsRexByte (0x90 + c.code) rfl
    fun rest => ?_
  simp [twoByte, hread, hbyte, cond_opcode (Or.inr rfl) hc]

theorem readsBack_jcc (hc : c.code < 16) (rel : Int32) : (jcc c rel).ReadsBack := by
  refine readAs_plain 0x0f ((0x80 + c.code) :: imm32 rel.toUInt32) (by decide) fun rest => ?_
  show twoByte _ ((0x80 + c.code) :: (imm32 rel.toUInt32 ++ rest)) = _
  simp [twoByte, cond_opcode (Or.inl rfl) hc, imm32?_imm32]

theorem readsBack_movsxd (dst : Reg) : (movsxd dst rm).ReadsBack := by
  have hwide := (bits_prefixesFor false true (.reg dst) rm false).1
  refine readAs_rex true (.reg dst) rm 0x63 (operand (.reg dst) rm).flatten (by decide)
    (by simp [encode, pieces]) fun rest => ?_
  show oneByte _ 0x63 _ = _
  simp +decide [oneByte, operands?_reg, fieldReg_prefixesFor, hwide]

theorem readsBack_lea (dst : Reg) (m : Mem) : (lea dst m).ReadsBack := by
  have hwide := (bits_prefixesFor false true (.reg dst) (.mem m) false).1
  refine readAs_rex true (.reg dst) (.mem m) 0x8d (operand (.reg dst) (.mem m)).flatten
    (by decide) (by simp [encode, pieces]) fun rest => ?_
  show oneByte _ 0x8d _ = _
  simp +decide [oneByte, operands?_reg, fieldReg_prefixesFor, hwide]

theorem readsBack_call (r : Reg) : (call r).ReadsBack := by
  have hread := operands?_digit false false (.reg r) false (n := 2)
  refine readAs_rex false (.digit 2) (.reg r) 0xff (operand (.digit 2) (.reg r)).flatten
    (by decide) (by simp [encode, pieces]; rfl) fun rest => ?_
  show oneByte _ 0xff _ = _
  simp +decide [oneByte, hread]

theorem readsBack_movImm32 (dst : Reg) (x : UInt32) : (movImm32 dst x).ReadsBack := by
  refine readAs_short false dst 0xb8 (imm32 x) (by cases dst <;> decide) flatten_append
    fun rest => ?_
  have h : opcode? (prefixesFor false false (.digit 0) (.reg dst) false)
      ((0xb8 + dst.low) :: (imm32 x ++ rest)) = some (.movImm32 dst
        (word32 x.toUInt8 (x >>> 8).toUInt8 (x >>> 16).toUInt8 (x >>> 24).toUInt8), rest) := by
    cases dst <;> rfl
  rw [h, word32_imm32]

theorem readsBack_movImm64 (dst : Reg) (x : UInt64) : (movImm64 dst x).ReadsBack := by
  refine readAs_short true dst 0xb8 (imm64 x) (by cases dst <;> decide) flatten_append
    fun rest => ?_
  have h : opcode? (prefixesFor false true (.digit 0) (.reg dst) false)
      ((0xb8 + dst.low) :: (imm64 x ++ rest)) =
        some (.movImm64 dst (Bytes.toWordLE (imm64 x)), rest) := by
    cases dst <;> rfl
  rw [h, toWordLE_imm64]

theorem readsBack_jmp (rel : Int32) : (jmp rel).ReadsBack := by
  refine readAs_plain 0xe9 (imm32 rel.toUInt32) (by decide) fun rest => ?_
  show (imm32? (imm32 rel.toUInt32 ++ rest)).bind (fun x => some (Instr.jmp x.1, x.2)) = _
  rw [imm32?_imm32]
  rfl

end Instr

/-- Decoding takes an instruction for itself, up to the length of its constant, and takes no byte that
does not belong to it. -/
theorem decode_encode (hi : i.HasForm) (rest : List UInt8) :
    decode (i.encode ++ rest) = some (i.cut, i.length - i.surplus) := by
  cases i with
  | movTo size dst src =>
    exact readAs_regRm (by cases size <;> decide) (by decide) (fun size r rm => .movTo size rm r)
      (fun p bs => by cases size <;> rfl) rest
  | movFrom size dst src =>
    exact readAs_regRm (by cases size <;> decide) (by decide) .movFrom
      (fun p bs => by cases size <;> rfl) rest
  | alu op size dst src =>
    refine readAs_regRm ?_ ?_ (.alu op) (fun p bs => ?_) rest
    · cases op <;> cases size <;> decide
    · cases op <;> decide
    · cases op <;> cases size <;> rfl
  | test size rm reg =>
    exact readAs_regRm (by cases size <;> decide) (by decide) (fun size r rm => .test size rm r)
      (fun p bs => by cases size <;> rfl) rest
  | movImm32 dst x => exact Instr.readsBack_movImm32 dst x rest
  | movImm64 dst x => exact Instr.readsBack_movImm64 dst x rest
  | movImm size dst x => exact Instr.readAs_movImm x rest
  | movzx size dst src => exact Instr.readsBack_movzx size dst rest
  | movsx size dst src => exact Instr.readsBack_movsx size dst rest
  | movsxd dst src => exact Instr.readsBack_movsxd dst rest
  | aluImm op size dst x => exact Instr.decode_aluImm op x rest
  | imul size dst src => exact Instr.readsBack_imul hi dst rest
  | unary op size rm => exact Instr.readsBack_unary op rest
  | shiftCl op size rm => exact Instr.readsBack_shiftCl op rest
  | shiftImm op size rm n => exact Instr.readsBack_shiftImm op n rest
  | setcc c rm => exact Instr.readsBack_setcc hi rest
  | lea dst m => exact Instr.readsBack_lea dst m rest
  | push r =>
    refine readAs_short false r 0x50 [] (by cases r <;> decide) (append_nil _).symm
      (fun rest => ?_) rest
    cases r <;> rfl
  | pop r =>
    refine readAs_short false r 0x58 [] (by cases r <;> decide) (append_nil _).symm
      (fun rest => ?_) rest
    cases r <;> rfl
  | call r => exact Instr.readsBack_call r rest
  | cqo => exact decode_of_opcode (p := ⟨false, some 0x48⟩) rfl rfl
  | cdq => exact readAs_plain 0x99 [] (by decide) (fun _ => rfl) rest
  | ret => exact readAs_plain 0xc3 [] (by decide) (fun _ => rfl) rest
  | nop => exact readAs_plain 0x90 [] (by decide) (fun _ => rfl) rest
  | ud2 => exact readAs_plain 0x0f [0x0b] (by decide) (fun _ => rfl) rest
  | jmp rel => exact Instr.readsBack_jmp rel rest
  | jcc c rel => exact Instr.readsBack_jcc hi rel rest

section Lengths

variable (wide : Bool) (field : Field) (rm : Operand) (force : Bool) (opcode : UInt8)

theorem length_rex_le : (rex wide field rm force).flatten.length ≤ 1 := by
  simp only [rex]
  split <;> simp

theorem length_operand_le : (operand field rm).flatten.length ≤ 6 := by
  cases rm with
  | reg r => simp [operand]
  | mem m =>
    have hdisp : (dispBytes m).length ≤ 4 := by
      unfold dispBytes
      split_ifs <;> simp [imm32]
    rw [flatten_operand_mem, length_cons, length_append]
    split_ifs <;> simp <;> omega

theorem length_sized_le (size : Size) : (sized size field rm opcode).flatten.length ≤ 9 := by
  have hrex := length_rex_le (size == .qword) field rm
    (size == .byte && (field.needsRexByte || rm.needsRexByte))
  have hoperand := length_operand_le field rm
  have hword : (if size == .word then [[0x66]] else [] : List (List UInt8)).flatten.length ≤ 1 := by
    split <;> simp
  simp only [sized, flatten_append, length_append, flatten_cons, flatten_nil,
    length_cons, length_nil]
  omega

theorem length_extended_le :
    (extended wide field rm force opcode).flatten.length ≤ 9 := by
  have hrex := length_rex_le wide field rm force
  have hoperand := length_operand_le field rm
  simp only [extended, flatten_append, length_append, flatten_cons,
    flatten_nil, length_cons, length_nil]
  omega

theorem length_short_le (r : Reg) : (short wide r opcode).flatten.length ≤ 2 := by
  have hrex := length_rex_le wide (.digit 0) (.reg r) false
  simp only [short, flatten_append, length_append, flatten_cons, flatten_nil,
    length_cons, length_nil]
  omega

/-- No instruction is longer than the architecture allows. -/
theorem Instr.length_le (i : Instr) : i.length ≤ 15 := by
  have hsized := length_sized_le
  have hextended := length_extended_le
  have hshort := length_short_le
  have hrex := length_rex_le
  have hoperand := length_operand_le
  unfold length encode
  cases i with
  | movTo size dst src | movFrom size dst src | alu op size dst src | test size rm reg
  | unary op size rm | shiftCl op size rm => exact (hsized ..).trans (by decide)
  | shiftImm op size rm n =>
    have h := hsized (.digit op.digit) rm 0xc1 size
    simp only [pieces, flatten_append, length_append]
    simp at h ⊢
    omega
  | movImm size dst x =>
    have h := hsized (.digit 0) dst 0xc7 size
    simp only [pieces, flatten_append, length_append]
    cases size <;> simp [imm16, imm32] at h ⊢ <;> omega
  | aluImm op size dst x =>
    have h (size : Size) := hsized (.digit op.digit) dst 0x81 size
    have h3 := hsized (.digit op.digit) dst 0x83 size
    simp only [pieces]
    split_ifs
    · have := h .byte
      simp at this ⊢
      omega
    · simp at h3 ⊢
      omega
    · have := h size
      simp [imm32] at this ⊢
      omega
  | movImm32 dst x => simpa [pieces, imm32] using (hshort false 0xb8 dst).trans (by decide)
  | movImm64 dst x =>
    simpa [pieces, imm64, Bytes.length_ofWordLE] using (hshort true 0xb8 dst).trans (by decide)
  | movzx size dst src | movsx size dst src | setcc c rm => exact (hextended ..).trans (by decide)
  | imul size dst src =>
    have h := hextended (size == .qword) (.reg dst) src false 0xaf
    simp only [pieces, flatten_append, length_append]
    split_ifs <;> simp at h ⊢ <;> omega
  | movsxd dst src =>
    have h := hrex true (.reg dst) src false
    have h' := hoperand (.reg dst) src
    simp [pieces] at h h' ⊢
    omega
  | lea dst m =>
    have h := hrex true (.reg dst) (.mem m) false
    have h' := hoperand (.reg dst) (.mem m)
    simp [pieces] at h h' ⊢
    omega
  | call r =>
    have h := hrex false (.digit 0) (.reg r) false
    have h' := hoperand (.digit 2) (.reg r)
    simp [pieces] at h h' ⊢
    omega
  | push r | pop r => exact (hshort ..).trans (by decide)
  | jmp rel | jcc c rel => simp [pieces, imm32]
  | cdq | cqo | ret | ud2 | nop => decide

end Lengths

end Dynarec.Machine
