import Dynarec.Proofs.Guest.Plan

/-!
# A processor of 32 bits beside one of 64 bits

Every instruction that is not for 64 bits alone computes words and keeps them sign-extended. So a
processor of 64 bits whose general registers hold sign-extended words does what one of 32 bits does:
it makes the same accesses, takes the same branches, and its registers are again those of the other,
sign-extended. System registers are not extended when they are written by an exception, so of them
only the low words are compared.
-/
namespace Dynarec.Guest

open Register BitVec

namespace Encoding

theorem rs_lt (w : BitVec 32) : rs w < 32 := (w.extractLsb' 21 5).isLt

theorem rt_lt (w : BitVec 32) : rt w < 32 := (w.extractLsb' 16 5).isLt

theorem rd_lt (w : BitVec 32) : rd w < 32 := (w.extractLsb' 11 5).isLt

theorem sa_lt (w : BitVec 32) : sa w < 32 := (w.extractLsb' 6 5).isLt

section Words

variable (x y : BitVec 32)

@[simp] theorem low_word : low x = x := setWidth_eq x

@[simp] theorem wide_word : (wide x : BitVec 32) = x := signExtend_eq x

@[simp] theorem low_wide : low (wide x : BitVec 64) = x := by
  rw [low, wide, Word.setWidth_signExtend x (by decide), signExtend_eq]

theorem wide_inj {x y : BitVec 32} : (wide x : BitVec 64) = wide y ↔ x = y := by
  constructor
  · intro h
    rw [← low_wide x, h, low_wide]
  · rintro rfl
    rfl

theorem beq_wide : ((wide x : BitVec 64) == wide y) = (x == y) := by
  rw [Bool.eq_iff_iff, beq_iff_eq, beq_iff_eq, wide_inj]

theorem wide_and : (wide (x &&& y) : BitVec 64) = wide x &&& wide y := signExtend_and

theorem wide_or : (wide (x ||| y) : BitVec 64) = wide x ||| wide y := signExtend_or

theorem wide_xor : (wide (x ^^^ y) : BitVec 64) = wide x ^^^ wide y := signExtend_xor

theorem wide_not : (wide (~~~x) : BitVec 64) = ~~~wide x := signExtend_not (by decide)

theorem getLsbD_wide {i : Nat} (hi : i < 64) :
    (wide x : BitVec 64).getLsbD i = if i < 32 then x.getLsbD i else x.msb := by
  rw [wide, getLsbD_signExtend]
  simp only [hi, decide_true, Bool.true_and]

theorem toInt_wide : (wide x : BitVec 64).toInt = x.toInt :=
  toInt_signExtend_of_le (by decide)

theorem toNat_wide :
    (wide x : BitVec 64).toNat = x.toNat + if 2 ^ 31 ≤ x.toNat then 2 ^ 64 - 2 ^ 32 else 0 := by
  rw [wide, toNat_signExtend, toNat_setWidth, msb_eq_decide,
    Nat.mod_eq_of_lt (by omega)]
  simp only [decide_eq_true_eq]

theorem slt_wide : (wide x : BitVec 64).slt (wide y) = x.slt y := by
  rw [slt_eq_decide, slt_eq_decide, toInt_wide, toInt_wide]

theorem sle_wide : (wide x : BitVec 64).sle (wide y) = x.sle y := by
  rw [sle_eq_decide, sle_eq_decide, toInt_wide, toInt_wide]

theorem ult_wide : (wide x : BitVec 64).ult (wide y) = x.ult y := by
  rw [ult_eq_decide, ult_eq_decide, toNat_wide, toNat_wide]
  congr 1
  split_ifs <;> apply propext <;> omega

theorem low_sshiftRight_wide {k : Nat} (hk : k < 32) :
    low ((wide x : BitVec 64).sshiftRight k) = x.sshiftRight k := by
  apply eq_of_getLsbD_eq
  intro i hi
  rw [low, getLsbD_setWidth, getLsbD_sshiftRight, getLsbD_sshiftRight,
    if_pos (show k + i < 64 by omega), getLsbD_wide x (by omega)]
  simp [hi, show ¬ 64 ≤ i by omega, show ¬ 32 ≤ i by omega]

theorem toNat_wide_mod : (wide x : BitVec 64).toNat % 32 = x.toNat % 32 := by
  rw [toNat_wide]
  split_ifs <;> omega

theorem wide_flag (p : Bool) : (flag p : BitVec 64) = wide (flag p) := by
  cases p <;> rfl

theorem wide_signExtend {k : Nat} (hk : k ≤ 32) (v : BitVec k) :
    v.signExtend 64 = (wide (v.signExtend 32) : BitVec 64) := by
  apply eq_of_toInt_eq
  rw [toInt_wide, toInt_signExtend_of_le (by omega), toInt_signExtend_of_le hk]

theorem wide_setWidth {k : Nat} (hk : k < 32) (v : BitVec k) :
    v.setWidth 64 = (wide (v.setWidth 32) : BitVec 64) := by
  have hlt : v.toNat < 2 ^ 31 :=
    lt_of_lt_of_le v.isLt (Nat.pow_le_pow_right Nat.two_pos (by omega))
  apply eq_of_toNat_eq
  rw [toNat_wide, toNat_setWidth, toNat_setWidth, Nat.mod_eq_of_lt (by omega),
    Nat.mod_eq_of_lt (by omega), if_neg (by omega), Nat.add_zero]

end Words

end Encoding

open Encoding

variable {μ : Type}

/-- A board of 64 bits with the memory of one of 32 bits, all of it behind addresses of 32 bits. -/
structure Board.Widens (B : Board 32 μ) (C : Board 64 μ) : Prop where
  bus : C.bus = B.bus
  map : C.map = B.map
  mask : B.map.mask.toNat < 2 ^ 32

/-- A core of 64 bits beside one of 32 bits. The content of the program counter, which no
instruction reads, is compared if `P` holds. -/
structure Core.Widens (P : Prop) (d : Core 32 μ) (e : Core 64 μ) : Prop where
  memory : e.memory = d.memory
  general : ∀ {id : Nat}, id ≤ lo → id ≠ 0 → e.reg id = wide (d.reg id)
  low : ∀ {id : Nat}, id < count → lo < id → (id = pc → P) →
    low (e.reg id) = d.reg id

namespace Core.Widens

variable {P : Prop} {d : Core 32 μ} {e : Core 64 μ} (h : d.Widens P e)
include h

theorem get {id : Nat} (hid : id ≤ lo) : e.get id = wide (d.get id) := by
  by_cases hz : id = 0
  · subst hz
    rfl
  · rw [Core.get_of_ne e hz, Core.get_of_ne d hz, h.general hid hz]

theorem get_rs (w : BitVec 32) : e.get (rs w) = wide (d.get (rs w)) :=
  h.get (by have := rs_lt w; unfold lo; omega)

theorem get_rt (w : BitVec 32) : e.get (rt w) = wide (d.get (rt w)) :=
  h.get (by have := rt_lt w; unfold lo; omega)

theorem setWidth_rt (w : BitVec 32) {k : Nat} (hk : k ≤ 32) :
    (e.get (rt w)).setWidth k = (d.get (rt w)).setWidth k := by
  rw [h.get_rt, ← setWidth_setWidth_of_le (wide _) hk]
  exact congrArg (setWidth k) (low_wide _)

theorem get_system {id : Nat} (hid : id < 32) :
    Encoding.low (e.get (system id)) = d.get (system id) := by
  have hne : system id ≠ 0 := by unfold system; omega
  rw [Core.get_of_ne e hne, Core.get_of_ne d hne]
  refine h.low ?_ ?_ fun hpc => absurd hpc ?_ <;>
    simp only [system, count, lo, pc] <;> omega

/-- General registers are written with sign-extended words, the others with the same low word. -/
theorem write {id : Nat} {x : BitVec 32} {y : BitVec 64} (hgeneral : id ≤ lo → y = wide x)
    (hlow : lo < id → Encoding.low y = x) : (d.set id x).Widens P (e.set id y) := by
  by_cases hz : id = 0
  · subst hz
    exact h
  · refine ⟨by simpa using h.memory, fun {k} hk hkz => ?_, fun {k} hk hlo hP => ?_⟩
    · rw [Core.reg_set e _ hz, Core.reg_set d _ hz]
      split_ifs with hkid
      · exact hgeneral (hkid ▸ hk)
      · exact h.general hk hkz
    · rw [Core.reg_set e _ hz, Core.reg_set d _ hz]
      split_ifs with hkid
      · exact hlow (hkid ▸ hlo)
      · exact h.low hk hlo hP

theorem set {id : Nat} (hid : id ≤ lo) {x : BitVec 32} {y : BitVec 64}
    (hy : y = wide x) : (d.set id x).Widens P (e.set id y) :=
  h.write (fun _ => hy) fun hlo => absurd hlo (Nat.not_lt.mpr hid)

theorem setSystem (id : Nat) {x : BitVec 32} {y : BitVec 64} (hy : Encoding.low y = x) :
    (d.set (system id) x).Widens P (e.set (system id) y) := by
  refine h.write (fun hle => absurd hle ?_) fun _ => hy
  unfold system lo
  omega

theorem access (memory : μ) :
    Core.Widens P { d with memory } { e with memory } :=
  ⟨rfl, h.general, h.low⟩

theorem setHiLo {hi lo : BitVec 32} :
    (setHiLo d hi lo).Widens P (setHiLo e (wide hi) (wide lo)) :=
  (h.set (le_refl _) rfl).set (by decide) rfl

end Core.Widens

section Execution

variable {B : Board 32 μ} {C : Board 64 μ} (hB : B.Widens C) {P : Prop} {d : Core 32 μ}
  {e : Core 64 μ} (h : d.Widens P e) (w : BitVec 32)
include hB h

theorem Board.Widens.target : C.target w e = B.target w d := by
  have hmask : B.map.mask.toBitVec = (B.map.mask.toBitVec.setWidth 32).setWidth 64 := by
    apply eq_of_toNat_eq
    rw [toNat_setWidth, toNat_setWidth, UInt64.toNat_toBitVec,
      Nat.mod_eq_of_lt hB.mask, Nat.mod_eq_of_lt B.map.mask.toNat_lt]
  have hsum : low (e.get (rs w) + (imm w).signExtend 64) =
      d.get (rs w) + (imm w).signExtend 32 := by
    rw [h.get_rs, wide_signExtend (by decide), low, setWidth_add _ _ (by decide)]
    exact congrArg₂ _ (low_wide _) (low_wide _)
  rw [Board.target, Board.target, Board.address, Board.address, hB.map, ← hsum]
  congr 1
  apply UInt64.toBitVec_inj.mp
  rw [UInt64.toBitVec_and, UInt64.toBitVec_and, hmask]
  apply eq_of_getLsbD_eq
  intro i hi
  by_cases hlt : i < 32 <;> simp [low, hi, hlt]

theorem Board.Widens.load {bytes : Nat} {f : BitVec (8 * bytes) → BitVec 32}
    {g : BitVec (8 * bytes) → BitVec 64} (hg : ∀ v, g v = wide (f v)) :
    Option.Rel (Core.Widens P) (B.load w d bytes f) (C.load w e bytes g) := by
  rw [Board.load, Board.load, hB.target h, hB.bus, h.memory]
  cases B.bus.load d.memory bytes (B.target w d) with
  | mk x memory =>
    cases x with
    | none => exact .none
    | some x =>
      refine .some ((h.access memory).set ?_ (hg _))
      have := rt_lt w
      unfold lo
      omega

theorem Board.Widens.store {bytes : Nat} (hbytes : bytes ≤ 4) :
    Option.Rel (Core.Widens P) (B.store w d bytes) (C.store w e bytes) := by
  rw [Board.store, Board.store, hB.target h, hB.bus, h.memory]
  simp only [h.setWidth_rt w (show 8 * bytes ≤ 32 by omega)]
  cases B.bus.store d.memory bytes (B.target w d) _ with
  | mk accepted memory =>
    cases accepted with
    | false => exact .none
    | true => exact .some (h.access memory)

/-- Every instruction that is not for 64 bits alone. -/
theorem Board.Widens.exec {m : Mnemonic} (hm : m.is64 = false) :
    Option.Rel (Core.Widens P) (exec B m w d) (Encoding.exec C m w e) := by
  have hrt : rt w ≤ lo := by have := rt_lt w; unfold lo; omega
  have hrd : rd w ≤ lo := by have := rd_lt w; unfold lo; omega
  have hmod (x : BitVec 32) : x.toNat % 32 < 32 := Nat.mod_lt _ (by decide)
  cases m with
  -- the low words are computed as at 32 bits
  | sll | srl | sllv | srlv | add | addu | sub | subu =>
    refine .some (h.set hrd ?_)
    simp only [h.get_rs, h.get_rt, toNat_wide_mod, low_wide, low_word, wide_word]
  | addi | addiu | lui =>
    refine .some (h.set hrt ?_)
    simp only [h.get_rs, low_wide, low_word, wide_word]
  | mult | multu | div | divu =>
    simp only [Encoding.exec, h.get_rs, h.get_rt, low_wide, low_word, wide_word]
    exact .some h.setHiLo
  | sra =>
    refine .some (h.set hrd ?_)
    rw [h.get_rt, low_sshiftRight_wide _ (sa_lt w), low_word, wide_word]
  | srav =>
    refine .some (h.set hrd ?_)
    rw [h.get_rs, h.get_rt, toNat_wide_mod, low_sshiftRight_wide _ (hmod _), low_word, wide_word]
  -- the whole registers are used, and their upper halves follow the signs
  | and | or | xor | nor | slt | sltu =>
    refine .some (h.set hrd ?_)
    simp only [h.get_rs, h.get_rt, wide_and, wide_or, wide_xor, wide_not, slt_wide, ult_wide, wide_flag]
  | andi | ori | xori =>
    refine .some (h.set hrt ?_)
    simp only [h.get_rs, wide_setWidth (show 16 < 32 by decide), wide_and, wide_or, wide_xor]
  | slti | sltiu =>
    refine .some (h.set hrt ?_)
    rw [h.get_rs, wide_signExtend (by decide)]
    simp only [slt_wide, ult_wide, wide_flag]
  | mfhi | mflo => exact .some (h.set hrd (h.get (by decide)))
  | mthi | mtlo => exact .some (h.set (by decide) (h.get_rs w))
  | mfc0 =>
    refine .some (h.set hrt ?_)
    rw [h.get_system (rd_lt w), low_word, wide_word]
  | lb | lh | lw => exact hB.load h w fun v => wide_signExtend (by decide) v
  | lbu | lhu => exact hB.load h w fun v => wide_setWidth (by decide) v
  | sb | sh | sw => exact hB.store h w (by decide)
  | sync | cache => exact .some h
  | _ => first | exact .none | cases hm

theorem Board.Widens.refusal {m : Mnemonic} (hm : m.is64 = false) :
    (refusal C m w e).1 = (refusal B m w d).1 ∧
      (refusal B m w d).2.Widens P (refusal C m w e).2 := by
  have hbytes : ∀ bytes, access m = .store bytes → 8 * bytes ≤ 32 := by
    intro bytes haccess
    cases m <;> cases haccess <;> first | decide | cases hm
  simp only [Encoding.refusal, hB.target h, hB.bus, h.memory]
  cases haccess : access m with
  | none => exact ⟨rfl, h⟩
  | load bytes => exact ⟨rfl, h.access _⟩
  | store bytes =>
    simp only [h.setWidth_rt w (hbytes bytes haccess), true_and]
    exact h.access _

omit hB in
theorem Core.Widens.onBits (test : Test) :
    test.onBits (e.get (rs w)) (e.get (rt w)) = test.onBits (d.get (rs w)) (d.get (rt w)) := by
  rw [h.get_rs, h.get_rt]
  cases test with
  | eq => exact beq_wide _ _
  | ne => exact congrArg Bool.not (beq_wide _ _)
  | ltz => exact slt_wide _ 0
  | gez => exact sle_wide 0 _
  | lez => exact sle_wide _ 0
  | gtz => exact slt_wide 0 _

end Execution

section Processors

variable {P : Prop}

/-- A processor of 64 bits beside one of 32 bits. -/
structure Processor.Widens (P : Prop) (M : Processor 32 μ) (N : Processor 64 μ) : Prop where
  core : M.toCore.Widens P N.toCore
  pc : low N.pc = M.pc

namespace Processor.Widens

variable {M : Processor 32 μ} {N : Processor 64 μ} (h : M.Widens P N)
include h

/-- The link of a transfer that does not leave its half of the address space. -/
theorem link (hpc : N.pc + 8 = wide (M.pc + 8)) (link : Bool) {id : Nat} (hid : id < 32) :
    (M.link link id).Widens P (N.link link id) := by
  cases link with
  | false => exact h.core
  | true => exact h.core.set (by unfold lo; omega) hpc

theorem level_iff {i : Nat} (hi : i < 32) :
    N.get (system status) &&& twoPow 64 i = 0 ↔
      M.get (system status) &&& twoPow 32 i = 0 := by
  have hpow {n : Nat} (hin : i < n) : twoPow n i ≠ 0#n := by
    intro hzero
    have hbit := congrArg (getLsbD · i) hzero
    simp [hin] at hbit
  rw [← h.core.get_system (show status < 32 by decide), and_twoPow,
    and_twoPow, low, getLsbD_setWidth]
  simp only [hi, decide_true, Bool.true_and]
  split_ifs
  · exact iff_of_false (hpow (by omega)) (hpow hi)
  · exact iff_of_true rfl rfl

theorem exception (k : Nat) :
    (M.exception (.ofNat 32 k)).Widens P (N.exception (.ofNat 64 k)) := by
  have hstatus := h.core.get_system (show status < 32 by decide)
  have hcause := h.core.get_system (show cause < 32 by decide)
  have hlevel : N.get (system status) &&& 2 = 0 ↔
      M.get (system status) &&& 2 = 0 := h.level_iff (i := 1) (by decide)
  unfold Processor.exception
  refine ⟨Core.Widens.setSystem ?_ status ?_, low_wide _⟩
  · have hcode := h.core.setSystem cause
      (x := (M.get (system cause) &&& ~~~0x7c#32) ||| (BitVec.ofNat 32 k <<< 2))
      (y := (N.get (system cause) &&& ~~~0x7c#64) ||| (BitVec.ofNat 64 k <<< 2))
      (by
        rw [low, setWidth_or, setWidth_and,
          setWidth_shiftLeft_of_le (by decide), setWidth_ofNat_of_le (by decide),
          ← hcause]
        rfl)
    by_cases hzero : M.get (system status) &&& 2 = 0
    · rw [if_pos hzero, if_pos (hlevel.mpr hzero)]
      exact hcode.setSystem epc h.pc
    · rw [if_neg hzero, if_neg (mt hlevel.mp hzero)]
      exact hcode
  · rw [low, setWidth_or, ← hstatus]
    rfl

theorem exceptionReturn : M.exceptionReturn.Widens P N.exceptionReturn := by
  have hstatus := h.core.get_system (show status < 32 by decide)
  have hlevel : N.get (system status) &&& 4 = 0 ↔
      M.get (system status) &&& 4 = 0 := h.level_iff (i := 2) (by decide)
  have hclear {x : BitVec 32} {y : BitVec 64} (hy : low y = x) :
      (M.toCore.set (system status)
        (M.get (system status) &&& ~~~x)).Widens P
          (N.toCore.set (system status)
            (N.get (system status) &&& ~~~y)) := by
    refine h.core.setSystem status ?_
    rw [low, setWidth_and, setWidth_not (by decide), ← hstatus, ← hy]
    rfl
  unfold Processor.exceptionReturn
  by_cases hzero : M.get (system status) &&& 4 = 0
  · rw [if_pos hzero, if_pos (hlevel.mpr hzero)]
    exact ⟨hclear rfl, h.core.get_system (by decide)⟩
  · rw [if_neg hzero, if_neg (mt hlevel.mp hzero)]
    exact ⟨hclear rfl, h.core.get_system (by decide)⟩

end Processor.Widens

end Processors

/-- What a region does at 64 bits beside what it does at 32 bits. -/
inductive Landing.Widens (P : Prop) : Landing 32 μ → Landing 64 μ → Prop
  | ended {M N} (h : M.Widens P N) : Widens P (.ended M) (.ended N)
  | refused {cause d e} (h : d.Widens P e) : Widens P (.refused (cause, d)) (.refused (cause, e))
  | waits (k : Nat) {d e} (h : d.Widens P e) : Widens P (.waits k d) (.waits k e)

namespace Region

/-- What two addresses must have in common for a move that is made at both of them. -/
def Move.Abreast (x y : UInt64) : Move → Prop
  | .plain _ m => m.is64 = false
  | .jump _ _ slot | .jumpRegister _ _ slot | .branch _ _ _ _ slot =>
      slot.1.is64 = false ∧ y.toBitVec + 8 = wide (x.toBitVec.setWidth 32 + 8)
  | .stop | .exceptionReturn | .exception _ => True

/-- The same move at the addresses of two paths, one at 32 bits and one at 64. -/
structure Abreast (p q : UInt64 × Move) : Prop where
  move : q.2 = p.2
  pc : low q.1.toBitVec = low p.1.toBitVec
  fits : p.2.Abreast p.1 q.1

/-- The same block in two plans. -/
structure Leg.Abreast (a b : Leg) : Prop where
  slot : b.slot = a.slot
  narrow : ∀ slot, a.slot = some slot → slot.1.is64 = false
  path : List.Forall₂ Region.Abreast a.path b.path

theorem Move.length_sides (m : Move) (c c' : CodeWindow) (x y : UInt64) :
    (m.sides c x).length = (m.sides c' y).length := by
  cases m <;> rfl

theorem length_sides_of_abreast {p q : Path} (h : List.Forall₂ Abreast p q) (c c' : CodeWindow) :
    (p.sides c).length = (q.sides c').length := by
  induction h with
  | nil => rfl
  | cons hab _ ih =>
    rw [Path.sides_cons, Path.sides_cons, List.length_append, List.length_append, ih, hab.move,
      Move.length_sides]

theorem cost_of_abreast {p q : Path} (h : List.Forall₂ Abreast p q) : p.cost = q.cost := by
  induction h with
  | nil => rfl
  | cons hab _ ih => rw [Path.cost_cons, Path.cost_cons, ih, hab.move]

section Lockstep

variable {B : Board 32 μ} {C : Board 64 μ} (hB : B.Widens C) {P : Prop} {d : Core 32 μ}
  {e : Core 64 μ}
include hB

theorem widens_perform (slot : Mnemonic × Word) (hslot : slot.1.is64 = false) (h : d.Widens P e)
    {f : Core 32 μ → Landing 32 μ} {g : Core 64 μ → Landing 64 μ}
    (hfg : ∀ {d' e'}, d'.Widens P e' → (f d').Widens P (g e')) :
    (perform B slot d f).Widens P (perform C slot e g) := by
  unfold perform
  have hexec := hB.exec h slot.2.code hslot
  have hrefusal := hB.refusal h slot.2.code hslot
  generalize exec B slot.1 slot.2.code d = r, exec C slot.1 slot.2.code e = r' at hexec ⊢
  cases hexec with
  | some hnext => exact hfg hnext
  | none =>
    obtain ⟨hcause, hrest⟩ := hrefusal
    generalize refusal B slot.1 slot.2.code d = p, refusal C slot.1 slot.2.code e = q
      at hcause hrest ⊢
    obtain ⟨cause, d'⟩ := p
    obtain ⟨cause', e'⟩ := q
    obtain rfl : cause' = cause := hcause
    exact .refused hrest

theorem widens_travel {p q : Path} (hpq : List.Forall₂ Abreast p q) (h : d.Widens P e) :
    (travel B p d).Widens P (travel C q e) := by
  induction hpq generalizing d e with
  | nil => exact .waits 0 h
  | @cons a b p q hab _ ih =>
    obtain ⟨x, m⟩ := a
    obtain ⟨y, m'⟩ := b
    obtain ⟨hmove, hpc, hfits⟩ := hab
    dsimp only at hmove hpc hfits
    subst hmove
    have hfacing : (facing d x).Widens P (facing e y) :=
      ⟨h, by rw [facing, setWidth_eq]; exact hpc⟩
    have hlink (link : Bool) {id : Nat} (hid : id < 32)
        (hbehind : y.toBitVec + 8 = wide (x.toBitVec.setWidth 32 + 8)) :
        ((facing d x).link link id).Widens P ((facing e y).link link id) :=
      hfacing.link (by rw [facing, setWidth_eq]; exact hbehind) link hid
    cases m' with
    | stop => exact .ended hfacing
    | plain w m => exact widens_perform hB (m, w) hfits h ih
    | exceptionReturn => exact .ended hfacing.exceptionReturn
    | exception cause => exact .ended (hfacing.exception cause.toNat)
    | jump w link slot =>
      exact widens_perform hB slot hfits.1 (hlink link (by decide) hfits.2) ih
    | jumpRegister w link slot =>
      refine widens_perform hB slot hfits.1 (hlink link w.rd_lt hfits.2) fun hnext => ?_
      refine .ended ⟨hnext, ?_⟩
      rw [h.get (show w.rs ≤ lo by have := w.rs_lt; unfold lo; omega)]
      exact low_wide _
    | branch w test likely link slot =>
      have htest := h.onBits w.code test
      rw [w.code_rs, w.code_rt] at htest
      cases likely with
      | true =>
        simp only [travel, htest]
        exact .waits _ (hlink link (by decide) hfits.2)
      | false =>
        simp only [travel, htest]
        exact widens_perform hB slot hfits.1 (hlink link (by decide) hfits.2) fun hnext => .waits _ hnext

theorem widens_leg {a b : Leg} (hab : a.Abreast b) (h : d.Widens P e) :
    (Leg.travel B a d).Widens P (Leg.travel C b e) := by
  unfold Leg.travel
  rw [hab.slot]
  cases hslot : a.slot with
  | none => exact widens_travel hB hab.path h
  | some slot =>
    exact widens_perform hB slot (hab.narrow slot hslot) h fun hnext => widens_travel hB hab.path hnext

theorem widens_pass {a b : Leg} (hab : a.Abreast b) {c c' : CodeWindow} {L : Landing 32 μ}
    {L' : Landing 64 μ} (h : L.Widens P L') :
    (Leg.pass B c a L).Widens P (Leg.pass C c' b L') := by
  cases h with
  | ended h => exact .ended h
  | refused h => exact .refused h
  | waits k h =>
    cases k with
    | zero => exact widens_leg hB hab h
    | succ k =>
      simp only [Leg.pass, length_sides_of_abreast hab.path c c']
      exact .waits _ h

/-- Two plans of the same blocks do the same. -/
theorem widens_tour {as bs : List Leg} (hab : List.Forall₂ Leg.Abreast as bs) {c c' : CodeWindow}
    {L : Landing 32 μ} {L' : Landing 64 μ} (h : L.Widens P L') :
    (tour B c as L).Widens P (tour C c' bs L') := by
  induction hab generalizing L L' with
  | nil => exact h
  | cons hleg _ ih => exact ih (widens_pass hB hleg h)

end Lockstep

end Region

end Dynarec.Guest
