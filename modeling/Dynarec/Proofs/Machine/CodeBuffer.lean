import Dynarec.Machine.CodeBuffer
import Mathlib.Tactic

/-!
# What is written to a code buffer

Writing at the position of a buffer leaves the bytes in front of it alone, whether it succeeds or not.
If it succeeds, the bytes behind the old position are those that were written.
-/
namespace Dynarec.Machine

open List

namespace Encode

/-- A list of short pieces, none of them empty. -/
def Short (ps : List (List UInt8)) : Prop :=
  ∀ bs ∈ ps, bs ≠ [] ∧ bs.length ≤ 8

@[simp] theorem short_nil : Short [] := by
  simp [Short]

@[simp] theorem short_cons {bs : List UInt8} {ps : List (List UInt8)} :
    Short (bs :: ps) ↔ (bs ≠ [] ∧ bs.length ≤ 8) ∧ Short ps := by
  simp [Short]

@[simp] theorem short_append {ps qs : List (List UInt8)} :
    Short (ps ++ qs) ↔ Short ps ∧ Short qs := by
  simp only [Short, mem_append, or_imp, forall_and]
  tauto

theorem short_ite {p : Prop} [Decidable p] {ps qs : List (List UInt8)} (hp : Short ps)
    (hq : Short qs) : Short (if p then ps else qs) := by
  split_ifs
  · exact hp
  · exact hq

@[simp] theorem short_rex (wide : Bool) (field : Field) (rm : Operand) (force : Bool) :
    Short (rex wide field rm force) :=
  short_ite (by simp) short_nil

@[simp] theorem short_operand (field : Field) (rm : Operand) : Short (operand field rm) := by
  cases rm with
  | reg r => simp [operand]
  | mem m =>
    have hbase : Short (if m.base.low == 4 then [[0x24]] else []) := short_ite (by simp) short_nil
    have hdisp : Short (if memMode m == 1 then [[m.disp.toUInt32.toUInt8]]
        else if memMode m == 2 then [imm32 m.disp.toUInt32] else []) :=
      short_ite (by simp) (short_ite (by simp [imm32]) short_nil)
    exact short_append.mpr ⟨short_append.mpr ⟨by simp, hbase⟩, hdisp⟩

@[simp] theorem short_sized (size : Size) (field : Field) (rm : Operand) (opcode : UInt8) :
    Short (sized size field rm opcode) := by
  have hword : Short (if size == .word then [[0x66]] else []) := short_ite (by simp) short_nil
  simp only [sized, short_append, hword, short_rex, short_operand]
  simp

@[simp] theorem short_extended (wide : Bool) (field : Field) (rm : Operand) (force : Bool)
    (opcode : UInt8) : Short (extended wide field rm force opcode) := by
  simp [extended]

@[simp] theorem short_short (wide : Bool) (r : Reg) (opcode : UInt8) :
    Short (short wide r opcode) := by
  simp [short]

end Encode

namespace Instr

open Encode

theorem short_pieces (i : Instr) : Short i.pieces := by
  cases i with
  | movImm size dst x => cases size <;> simp [pieces, imm16, imm32]
  | aluImm op size dst x =>
    simp only [pieces]
    refine short_ite ?_ (short_ite ?_ ?_)
    all_goals simp [imm32]
  | imul size dst src =>
    have hword : Short (if size == .word then [[0x66]] else []) := short_ite (by simp) short_nil
    exact short_append.mpr ⟨hword, short_extended _ _ _ _ _⟩
  | movImm64 dst x => simp [pieces, imm64, Bytes.ofWordLE]
  | _ => simp [pieces, imm32]

end Instr

namespace CodeBuffer

variable {b b' b'' : CodeBuffer} {bs cs : List UInt8}

theorem getElem?_setBytes {bytes : Array UInt8} {k : Nat} {xs : List UInt8}
    (h : k + xs.length ≤ bytes.size) (i : Nat) :
    (setBytes bytes k xs)[i]? = if k ≤ i ∧ i < k + xs.length then xs[i - k]? else bytes[i]? := by
  induction xs generalizing bytes k with
  | nil =>
    have hno : ¬ (k ≤ i ∧ i < k) := by omega
    simp [setBytes, hno]
  | cons x xs ih =>
    rw [length_cons] at h ⊢
    rw [setBytes, ih (by rw [Array.size_setIfInBounds]; omega), Array.getElem?_setIfInBounds]
    by_cases hk : k = i
    · subst hk
      have hlt : k < bytes.size := by omega
      simp [hlt]
    · by_cases hin : k ≤ i ∧ i < k + (xs.length + 1)
      · have hin' : k + 1 ≤ i ∧ i < k + 1 + xs.length := by omega
        obtain ⟨j, hj⟩ : ∃ j, i - k = j + 1 := ⟨i - k - 1, by omega⟩
        simp [hin, hin', hj, show i - (k + 1) = j by omega]
      · have hin' : ¬ (k + 1 ≤ i ∧ i < k + 1 + xs.length) := by omega
        rw [if_neg hin', if_neg hk, if_neg hin]

theorem byteAt_writeAt (b : CodeBuffer) (k : Nat) (bs : List UInt8) (i : Nat) :
    (b.writeAt k bs).byteAt i =
      if k ≤ i ∧ i < k + bs.length then bs.getD (i - k) 0 else b.byteAt i := by
  have hroom : k + bs.length ≤ (b.bytes ++ Array.replicate (k + bs.length - b.bytes.size) 0).size := by
    rw [Array.size_append, Array.size_replicate]
    omega
  unfold byteAt writeAt
  rw [Array.getD_eq_getD_getElem?, getElem?_setBytes hroom, getD_eq_getElem?_getD]
  split_ifs with hin
  · rfl
  · rw [Array.getD_eq_getD_getElem?, Array.getElem?_append]
    split_ifs with hlt
    · rfl
    · rw [Array.getElem?_replicate, Array.getElem?_eq_none (by omega)]
      split_ifs <;> rfl

/-- The write position lies in a buffer of which a signed machine word can say the size. -/
structure Inside (b : CodeBuffer) : Prop where
  low : 0 ≤ b.offset
  high : b.offset ≤ b.capacity
  small : b.capacity < 2 ^ 62

/-- `b'` has what stands before the write position of `b`. -/
structure Keeps (b b' : CodeBuffer) : Prop where
  capacity : b'.capacity = b.capacity
  offset : b.offset ≤ b'.offset
  high : b'.offset ≤ b'.capacity
  bytes : ∀ i : Nat, (i : Int) < b.offset → b'.byteAt i = b.byteAt i

theorem Keeps.refl (h : b.Inside) : Keeps b b :=
  ⟨rfl, le_rfl, h.high, fun _ _ => rfl⟩

theorem Keeps.trans (h : Keeps b b') (h' : Keeps b' b'') : Keeps b b'' := by
  refine ⟨h'.capacity.trans h.capacity, h.offset.trans h'.offset, h'.high, ?_⟩
  intro i hi
  rw [h'.bytes i (hi.trans_le h.offset), h.bytes i hi]

theorem Keeps.inside (h : Keeps b b') (hb : b.Inside) : b'.Inside :=
  ⟨hb.low.trans h.offset, h.high, h.capacity ▸ hb.small⟩

/-- `b'` is `b` with the bytes `bs` written at its position. -/
structure Appends (b : CodeBuffer) (bs : List UInt8) (b' : CodeBuffer) : Prop where
  capacity : b'.capacity = b.capacity
  offset : b'.offset = b.offset + bs.length
  high : b'.offset ≤ b'.capacity
  error : b'.error = none
  bytes : ∀ i : Nat, b'.byteAt i =
    if b.offset.toNat ≤ i ∧ i < b.offset.toNat + bs.length then bs.getD (i - b.offset.toNat) 0
    else b.byteAt i

theorem Appends.refl (h : b.Inside) (herror : b.error = none) : Appends b [] b := by
  refine ⟨rfl, by simp, h.high, herror, fun i => ?_⟩
  have hno : ¬ (b.offset.toNat ≤ i ∧ i < b.offset.toNat + ([] : List UInt8).length) := by
    rw [length_nil]
    omega
  rw [if_neg hno]

theorem Appends.trans (hb : b.Inside) (h : Appends b bs b') (h' : Appends b' cs b'') :
    Appends b (bs ++ cs) b'' := by
  have hlow := hb.low
  have hoff : b'.offset.toNat = b.offset.toNat + bs.length := by
    rw [h.offset]
    omega
  refine ⟨h'.capacity.trans h.capacity, ?_, h'.high, h'.error, fun i => ?_⟩
  · rw [h'.offset, h.offset, length_append]
    push_cast
    omega
  · rw [h'.bytes, h.bytes, hoff, length_append, getD_eq_getElem?_getD,
      getD_eq_getElem?_getD, getD_eq_getElem?_getD, getElem?_append]
    by_cases hlo : i < b.offset.toNat
    · simp [show ¬ b.offset.toNat ≤ i by omega, show ¬ b.offset.toNat + bs.length ≤ i by omega]
    · by_cases hmid : i < b.offset.toNat + bs.length
      · simp [show b.offset.toNat ≤ i by omega, hmid,
          show ¬ b.offset.toNat + bs.length ≤ i by omega, show i - b.offset.toNat < bs.length by omega,
          show i < b.offset.toNat + (bs.length + cs.length) by omega]
      · simp [show b.offset.toNat ≤ i by omega, hmid,
          show b.offset.toNat + bs.length ≤ i by omega,
          show ¬ i - b.offset.toNat < bs.length by omega, Nat.add_assoc, Nat.sub_sub]

theorem Appends.keeps (hb : b.Inside) (h : Appends b bs b') : Keeps b b' := by
  refine ⟨h.capacity, by rw [h.offset]; omega, h.high, fun i hi => ?_⟩
  have hlow := hb.low
  rw [h.bytes, if_neg (by omega)]

theorem Appends.extract (hb : b.Inside) (h : Appends b bs b') :
    b'.extract b.offset.toNat b'.offset.toNat = bs := by
  have hlow := hb.low
  have hlen : b'.offset.toNat - b.offset.toNat = bs.length := by
    rw [h.offset]
    omega
  rw [CodeBuffer.extract, hlen]
  refine ext_getElem (by simp) fun i hi hi' => ?_
  have hlt : i < bs.length := hi'
  simp [h.bytes, hlt]

theorem ahead_eq (hb : b.Inside) {n : Nat} (hn : n < 2 ^ 61) : b.ahead n = b.offset + n := by
  have hlow := hb.low
  have hhigh := hb.high
  have hsmall : (b.capacity : Int) < 2 ^ 62 := by exact_mod_cast hb.small
  have hword : (1 <<< 64 : Nat) = 2 ^ 64 := Nat.one_shiftLeft 64
  rw [ahead, Host.signedWord, hword]
  exact Int.bmod_eq_of_le (by omega) (by omega)

theorem not_isMisplaced (hb : b.Inside) (n : Nat) : b.isMisplaced n = false := by
  have hlow := hb.low
  have hhigh := hb.high
  simp [isMisplaced, not_lt.mpr hlow, not_lt.mpr hhigh]

/-- A piece is written as a whole, or there is no room for it and the error is set. -/
theorem piece_cases (hb : b.Inside) (herror : b.error = none) (hbs : bs.length < 2 ^ 61) :
    Appends b bs (b.piece bs) ∨
      ∃ e, b.piece bs = { b with error := some e } ∧ b.capacity < b.offset + bs.length := by
  unfold piece
  rw [not_isMisplaced hb, ahead_eq hb hbs, herror]
  simp only [Option.isSome_none, Bool.false_eq_true, or_self, if_false]
  split_ifs with hfull
  · exact Or.inr ⟨_, rfl, hfull⟩
  · refine Or.inl ⟨rfl, rfl, not_lt.mp hfull, herror, fun i => ?_⟩
    exact byteAt_writeAt b b.offset.toNat bs i

theorem piece_of_error (herror : b.error ≠ none) : b.piece bs = b := by
  have hsome : b.error.isSome = true := Option.isSome_iff_ne_none.mpr herror
  simp [piece, hsome]

theorem foldl_piece_of_error {ps : List (List UInt8)} (herror : b.error ≠ none) :
    ps.foldl piece b = b := by
  induction ps with
  | nil => rfl
  | cons bs ps ih => rw [foldl_cons, piece_of_error herror, ih]

/-- Pieces are appended, or there is no room for all of them and those that fit are kept. -/
theorem foldl_piece {ps : List (List UInt8)} (hb : b.Inside) (herror : b.error = none)
    (hps : ∀ bs ∈ ps, bs.length < 2 ^ 61) :
    Appends b ps.flatten (ps.foldl piece b) ∨ ∃ o, (ps.foldl piece b).error = some o ∧
      Keeps b (ps.foldl piece b) ∧ b.capacity < b.offset + ps.flatten.length := by
  induction ps generalizing b with
  | nil => exact Or.inl (.refl hb herror)
  | cons p ps ih =>
    obtain ⟨hp, hps⟩ := forall_mem_cons.mp hps
    rw [foldl_cons, flatten_cons, length_append]
    rcases piece_cases hb herror hp with h | ⟨e, h, hfull⟩
    · have hkeeps := h.keeps hb
      rcases ih (hkeeps.inside hb) h.error hps with hrest | ⟨o, ho, hrest, hfull⟩
      · exact Or.inl (h.trans hb hrest)
      · rw [h.capacity, h.offset] at hfull
        exact Or.inr ⟨o, ho, hkeeps.trans hrest, by omega⟩
    · rw [h, foldl_piece_of_error (by simp)]
      exact Or.inr ⟨e, rfl, ⟨rfl, le_rfl, hb.high, fun _ _ => rfl⟩, by omega⟩

theorem foldl_emit (b : CodeBuffer) (code : List Instr) :
    code.foldl emit b = (code.flatMap Instr.pieces).foldl piece b := by
  induction code generalizing b with
  | nil => rfl
  | cons i code ih => rw [foldl_cons, ih, flatMap_cons, foldl_append, emit]

theorem flatten_pieces (code : List Instr) :
    (code.flatMap Instr.pieces).flatten = code.flatMap Instr.encode := by
  induction code with
  | nil => rfl
  | cons i code ih =>
    rw [flatMap_cons, flatten_append, flatMap_cons, Instr.encode, ih]

theorem length_of_mem_pieces {code : List Instr} (h : bs ∈ code.flatMap Instr.pieces) :
    bs.length < 2 ^ 61 := by
  obtain ⟨i, -, hi⟩ := mem_flatMap.mp h
  exact (i.short_pieces bs hi).2.trans_lt (by norm_num)

/-- Instructions are appended, or there is no room for all of them. -/
theorem emitAll (hb : b.Inside) (herror : b.error = none) (code : List Instr) :
    Appends b (code.flatMap Instr.encode) (code.foldl emit b) ∨
      ∃ o, (code.foldl emit b).error = some o ∧ Keeps b (code.foldl emit b) ∧
        b.capacity < b.offset + (code.flatMap Instr.encode).length := by
  rw [foldl_emit, ← flatten_pieces]
  exact foldl_piece hb herror fun bs => length_of_mem_pieces

theorem emitAll_of_error (herror : b.error ≠ none) (code : List Instr) : code.foldl emit b = b := by
  rw [foldl_emit, foldl_piece_of_error herror]

theorem emitAll_keeps (hb : b.Inside) (code : List Instr) : Keeps b (code.foldl emit b) := by
  by_cases herror : b.error = none
  · rcases emitAll hb herror code with h | ⟨-, -, h, -⟩
    · exact h.keeps hb
    · exact h
  · rw [emitAll_of_error herror]
    exact .refl hb

end CodeBuffer

end Dynarec.Machine
