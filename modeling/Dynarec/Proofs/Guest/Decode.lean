import Dynarec.Proofs.Guest.LiftTyping
import Dynarec.Proofs.Guest.Processor

/-!
# Words and their instructions

Lifting reads the fields of a word with shifts and masks, the processor as ranges of bits. Both find the
same fields and the same instruction in every word, and they agree on how an instruction transfers
control.
-/
namespace Dynarec.Guest

open BitVec

namespace Encoding

theorem lookup_special : ∀ k < 64, table.lookup (.special k) = Mnemonic.ofFunct? k := by
  decide +kernel

theorem lookup_regimm : ∀ k < 32, table.lookup (.regimm k) = Mnemonic.ofRegimm? k := by
  decide +kernel

theorem lookup_system : ∀ k < 32, k ≠ 16 → ∀ f < 64,
    table.lookup (.system k) = Mnemonic.ofCop0? k f := by
  decide +kernel

theorem lookup_systemFunction : ∀ f < 64,
    table.lookup (.systemFunction f) = Mnemonic.ofCop0? 16 f := by
  decide +kernel

theorem lookup_opcode : ∀ k < 64, table.lookup (.opcode k) = Mnemonic.ofOpcode? k := by
  decide +kernel

end Encoding

namespace Word

variable (w : Word)

/-- The word as the processor sees it. -/
abbrev code : BitVec 32 := w.bits.toBitVec

theorem toNat_field (x : UInt32) {s k : Nat} (hs : s < 32) (hk : k ≤ 32) :
    ((x >>> UInt32.ofNat s) &&& UInt32.ofNat (2 ^ k - 1)).toNat =
      (x.toBitVec.extractLsb' s k).toNat := by
  have hshift : (UInt32.ofNat s).toNat = s := by
    simp only [UInt32.toNat_ofNat']
    omega
  have hmask : (UInt32.ofNat (2 ^ k - 1)).toNat = 2 ^ k - 1 := by
    have := Nat.pow_le_pow_right (n := 2) (by norm_num) hk
    simp only [UInt32.toNat_ofNat']
    omega
  rw [UInt32.toNat_and, hmask, Nat.and_two_pow_sub_one_eq_mod, UInt32.toNat_shiftRight, hshift,
    Nat.mod_eq_of_lt hs]
  simp

theorem code_rs : Encoding.rs w.code = w.rs :=
  (toNat_field w.bits (by decide : 21 < 32) (by decide : 5 ≤ 32)).symm

theorem code_rt : Encoding.rt w.code = w.rt :=
  (toNat_field w.bits (by decide : 16 < 32) (by decide : 5 ≤ 32)).symm

theorem code_rd : Encoding.rd w.code = w.rd :=
  (toNat_field w.bits (by decide : 11 < 32) (by decide : 5 ≤ 32)).symm

theorem code_funct : Encoding.funct w.code = w.funct := by
  have h := toNat_field w.bits (by decide : 0 < 32) (by decide : 6 ≤ 32)
  rw [Encoding.funct, ← h]
  simp [funct]

theorem code_opcode : Encoding.opcode w.code = w.opcode := by
  have := w.bits.toNat_lt
  rw [Encoding.opcode, opcode, UInt32.toNat_shiftRight]
  simp only [extractLsb'_toNat, UInt32.toNat_toBitVec, Nat.shiftRight_eq_div_pow]
  simp
  omega

theorem code_sa : Encoding.sa w.code = w.sa.toNat := by
  have h := toNat_field w.bits (by decide : 6 < 32) (by decide : 5 ≤ 32)
  rw [Encoding.sa, ← h, sa, UInt32.toNat_toUInt64]
  rfl

theorem opcode_lt : w.opcode < 64 := by
  rw [← code_opcode]
  exact (w.code.extractLsb' 26 6).isLt

theorem funct_lt : w.funct < 64 := by
  rw [← code_funct]
  exact (w.code.extractLsb' 0 6).isLt

/-- Both tables know the same instructions. -/
theorem decode_code : Encoding.decode w.code = w.decode := by
  unfold Encoding.decode Encoding.place Word.decode
  rw [code_opcode, code_rs, code_rt, code_funct]
  split_ifs with h0 h1 h16 hrs
  · rw [h0]
    exact Encoding.lookup_special _ w.funct_lt
  · rw [h1]
    exact Encoding.lookup_regimm _ w.rt_lt
  · rw [h16, hrs]
    exact Encoding.lookup_systemFunction _ w.funct_lt
  · rw [h16]
    exact Encoding.lookup_system _ w.rs_lt hrs _ w.funct_lt
  · split
    · exact absurd ‹_› h0
    · exact absurd ‹_› h1
    · exact absurd ‹_› h16
    · exact Encoding.lookup_opcode _ w.opcode_lt

section Immediates

variable {t : Ty}

theorem setWidth_signExtend {k n m : Nat} (x : BitVec k) (h : m ≤ n) :
    (x.signExtend n).setWidth m = x.signExtend m := by
  apply eq_of_getLsbD_eq
  intro i hi
  have hn : i < n := by omega
  rw [getLsbD_setWidth, getLsbD_signExtend, getLsbD_signExtend]
  simp only [hi, hn, decide_true, Bool.true_and]

theorem low_simm (h : t.bits ≤ 64) :
    t.low w.simm = (Encoding.imm w.code).signExtend t.bits := by
  have hhalf : w.bits.toUInt16.toInt16.toBitVec = Encoding.imm w.code := by
    apply eq_of_toNat_eq
    simp [Encoding.imm]
  rw [← setWidth_signExtend _ h, ← hhalf]
  rfl

theorem low_imm (h : t.bits ≤ 64) : t.low w.imm = (Encoding.imm w.code).setWidth t.bits := by
  have hand : w.bits.toNat &&& 65535 = w.bits.toNat % 65536 :=
    Nat.and_two_pow_sub_one_eq_mod w.bits.toNat 16
  have himm : w.imm.toBitVec = (Encoding.imm w.code).setWidth 64 := by
    apply eq_of_toNat_eq
    simp only [imm, Encoding.imm, UInt64.toNat_toBitVec, UInt32.toNat_toUInt64, UInt32.toNat_and,
      toNat_setWidth, extractLsb'_toNat, UInt32.toNat_toBitVec]
    simp
    omega
  rw [Ty.low, himm, setWidth_setWidth_of_le _ h]

theorem code_imm_eq_zero (h : w.imm = 0) : Encoding.imm w.code = 0 := by
  have hand : w.bits.toNat &&& 65535 = w.bits.toNat % 65536 :=
    Nat.and_two_pow_sub_one_eq_mod w.bits.toNat 16
  have hzero := congrArg UInt64.toNat h
  apply eq_of_toNat_eq
  simp [imm, Encoding.imm, hand] at hzero ⊢
  exact hzero

theorem low_upper (h : t.bits ≤ 64) :
    t.low w.upper = Encoding.wide ((Encoding.imm w.code).setWidth 32 <<< 16) := by
  have hupper : (w.bits <<< 16).toBitVec = (Encoding.imm w.code).setWidth 32 <<< 16 := by
    apply eq_of_toNat_eq
    simp [Encoding.imm, Nat.shiftLeft_eq]
    omega
  rw [Encoding.wide, ← setWidth_signExtend _ h, ← hupper]
  rfl

theorem setWidth_target {n : Nat} (hn : n = 32 ∨ n = 64) :
    w.target.toBitVec.setWidth n = (Encoding.index w.code).setWidth n <<< 2 := by
  have hand : w.bits.toNat &&& 67108863 = w.bits.toNat % 67108864 :=
    Nat.and_two_pow_sub_one_eq_mod w.bits.toNat 26
  apply eq_of_toNat_eq
  rcases hn with rfl | rfl
  · simp [target, Encoding.index, hand, Nat.shiftLeft_eq]
  · simp [target, Encoding.index, hand, Nat.shiftLeft_eq]

theorem low_target (ht : t = Ty.i32 ∨ t = Ty.i64) :
    t.low w.target = (Encoding.index w.code).setWidth t.bits <<< 2 :=
  w.setWidth_target (ht.imp (congrArg Ty.bits) (congrArg Ty.bits))

theorem low_branchOffset (h : t.bits ≤ 64) :
    t.low w.branchOffset = (Encoding.imm w.code).signExtend t.bits <<< 2 := by
  rw [← w.low_simm h]
  exact setWidth_shiftLeft_of_le h

end Immediates

end Word

/-- The condition of a branch, by its two registers. -/
def Test.onBits {n : Nat} (test : Test) (x y : BitVec n) : Bool :=
  match test with
  | .eq => x == y
  | .ne => x != y
  | .ltz => x.slt 0
  | .gez => BitVec.sle 0 x
  | .lez => x.sle 0
  | .gtz => BitVec.slt 0 x

theorem Encoding.taken?_branch {n : Nat} {m : Mnemonic} {test : Test} {likely link : Bool}
    (hm : m.control = .branch test likely link) (x y : BitVec n) :
    taken? m x y = some (test.onBits x y) ∧ isLikely m = likely ∧ isLinking m = link := by
  cases m <;> cases hm <;>
    simp [taken?, isLikely, isLinking, Test.onBits, BitVec.sle_eq_not_slt]

namespace Processor

open Encoding

variable {n : Nat} {μ : Type} {B : Board n μ} {M : Processor n μ} {w : Word} {m : Mnemonic}

/-- The registers behind a transfer that may keep a link in register `id`. -/
def link (M : Processor n μ) (link : Bool) (id : Nat) : Core n μ :=
  if link then M.toCore.set id (M.pc + 8) else M.toCore

section Step

variable (hfetch : B.fetch M.pc = some w.code) (hdecode : w.decode = some m)
  (h64 : m.is64 = true → n = 64)
include hfetch hdecode h64

theorem step_exec {d : Core n μ} (hexec : exec B m w.code M.toCore = some d) :
    M.step B = some { d with pc := M.target.getD (M.pc + 4) } := by
  have hno : ¬ (m.is64 = true ∧ n ≠ 64) := fun h => h.2 (h64 h.1)
  simp only [step, hfetch, Option.bind_eq_bind, Option.bind_some, w.decode_code, hdecode,
    if_neg hno, hexec]

theorem step_transfer (hm : m.control ≠ .none) (htarget : M.target = none) :
    M.step B = M.transfer m w.code := by
  have hno : ¬ (m.is64 = true ∧ n ≠ 64) := fun h => h.2 (h64 h.1)
  have hexec : exec B m w.code M.toCore = none := by
    cases m <;> first | rfl | exact absurd rfl hm
  simp only [step, hfetch, Option.bind_eq_bind, Option.bind_some, w.decode_code, hdecode,
    if_neg hno, hexec, htarget, Option.isNone_none, if_true]

end Step

theorem transfer_jump {link : Bool} (hm : m.control = .jump link) :
    M.transfer m w.code = some { M.link link 31 with
      pc := M.pc + 4
      target := some ((M.pc + 4) &&& ~~~0x0fffffff#n ||| (index w.code).setWidth n <<< 2) } := by
  cases m <;> cases hm <;> rfl

theorem transfer_jumpRegister {link : Bool} (hm : m.control = .jumpRegister link) :
    M.transfer m w.code = some { M.link link w.rd with
      pc := M.pc + 4, target := some (M.get w.rs) } := by
  rw [← w.code_rs, ← w.code_rd]
  cases m <;> cases hm <;> rfl

theorem transfer_exception {cause : UInt64} (hm : m.control = .exception cause) :
    M.transfer m w.code = some (M.exception (.ofNat n cause.toNat)) := by
  cases m <;> cases hm <;> rfl

theorem transfer_exceptionReturn (hm : m.control = .exceptionReturn) :
    M.transfer m w.code = some M.exceptionReturn := by
  cases m <;> cases hm
  rfl

theorem transfer_of_taken {test : Test} {likely link taken : Bool} {c : BitVec 32}
    (hm : m.control = .branch test likely link)
    (htaken : taken? m (M.get (rs c)) (M.get (rt c)) = some taken) :
    M.transfer m c = some (if taken then
      { M.linked m 31 with pc := M.pc + 4, target := some (M.pc + 4 + (imm c).signExtend n <<< 2) }
      else { M.linked m 31 with pc := if isLikely m then M.pc + 8 else M.pc + 4 }) := by
  cases m <;> cases hm <;> simp only [transfer, htaken] <;> cases taken <;> rfl

theorem transfer_branch {test : Test} {likely link : Bool}
    (hm : m.control = .branch test likely link) :
    M.transfer m w.code = some (if test.onBits (M.get w.rs) (M.get w.rt) then
      { M.link link 31 with
        pc := M.pc + 4, target := some (M.pc + 4 + (imm w.code).signExtend n <<< 2) }
      else { M.link link 31 with pc := if likely then M.pc + 8 else M.pc + 4 }) := by
  obtain ⟨htaken, hlikely, hlink⟩ := taken?_branch hm (M.get w.rs) (M.get w.rt)
  rw [← w.code_rs, ← w.code_rt] at htaken ⊢
  rw [transfer_of_taken hm htaken]
  simp only [linked, Processor.link, hlikely, hlink]

theorem steps_succ {k : Nat} {M₁ M₂ : Processor n μ} (h₁ : M.step B = some M₁)
    (h₂ : M₁.steps B k = some M₂) : M.steps B (k + 1) = some M₂ := by
  rw [steps, h₁, Option.bind_some, h₂]

theorem steps_add {j k : Nat} {M₁ M₂ : Processor n μ} (h₁ : M.steps B j = some M₁)
    (h₂ : M₁.steps B k = some M₂) : M.steps B (j + k) = some M₂ := by
  induction j generalizing M with
  | zero =>
    cases h₁
    rwa [Nat.zero_add]
  | succ j ih =>
    obtain ⟨M', hstep, hrest⟩ := Option.bind_eq_some_iff.mp h₁
    rw [Nat.succ_add]
    exact steps_succ hstep (ih hrest)

end Processor

end Dynarec.Guest
