import Dynarec.Guest.Lift
import Dynarec.Proofs.Graph.BuilderTyping

/-!
# Typing of lifted instructions

Every instruction that does not transfer control is a straight step, and its operands have matching
types at either width of the registers. Conversions disappear where the width is already right.
-/
namespace Dynarec.Guest

open Builder Site Register

namespace Word

variable (w : Word)

theorem toNat_and_31_lt (x : UInt32) : (x &&& 31).toNat < 32 := by
  rw [UInt32.toNat_and]
  exact Nat.lt_succ_of_le Nat.and_le_right

theorem rs_lt : w.rs < 32 := toNat_and_31_lt _

theorem rt_lt : w.rt < 32 := toNat_and_31_lt _

theorem rd_lt : w.rd < 32 := toNat_and_31_lt _

end Word

theorem Register.system_lt {n : Nat} (hn : n < 32) : system n < count := by
  simp only [system, count]
  omega

namespace Setting

variable (c : Setting) (w : Word)

set_option synthInstance.maxSize 65536

section Straight

instance (n : Nat) : Straight (c.getReg n) := by
  unfold getReg
  infer_instance

instance (n : Nat) (v : Value) : Straight (setReg n v) := by
  unfold setReg
  infer_instance

instance (v : Value) : Straight (low v) := by
  unfold low
  infer_instance

instance (v : Value) : Straight (c.widen v) := by
  unfold widen
  infer_instance

instance (rd : Nat) (op : BinOp) (x y : Value) : Straight (alu rd op x y) := by
  unfold alu
  infer_instance

instance (rd : Nat) (op : BinOp) (x y : Value) : Straight (c.alu32 rd op x y) := by
  unfold alu32
  infer_instance

instance (op : BinOp) (amount : Value) : Straight (c.shift32 w op amount) := by
  unfold shift32
  infer_instance

instance (amount : Value) : Straight (c.sra32 w amount) := by
  unfold sra32
  infer_instance

instance (rd : Nat) (op : CmpOp) (x y : Value) : Straight (c.setIf rd op x y) := by
  unfold setIf
  infer_instance

/-- The sum, the mask and the base of an address are each left out where they change nothing. -/
theorem address_eq : c.address w = (do
    let base ← c.getReg w.rs
    let guest ← (if w.imm ≠ 0 then binop .add base (c.lit w.simm) else pure base : Build Value)
    let wide ← zext Ty.i64 guest
    let masked ← (if c.map.mask ≠ -1 then binop .and wide (Value.lit Ty.i64 c.map.mask) else
      pure wide : Build Value)
    if c.map.base ≠ 0 then binop .add masked (Value.lit Ty.i64 c.map.base) else pure masked) := by
  unfold address
  split_ifs <;> rfl

instance : Straight (c.address w) := by
  rw [address_eq]
  infer_instance

instance (t : Ty) (ext : CvtOp) : Straight (c.loadReg w t ext) := by
  unfold loadReg
  infer_instance

instance (t : Ty) : Straight (c.storeReg w t) := by
  unfold storeReg
  infer_instance

instance (test : Test) : Straight (c.test w test) := by
  cases test <;> unfold Setting.test <;> infer_instance

instance (m : Mnemonic) : Straight (c.lift w m) := by
  cases m <;> dsimp only [lift, aluRegs, aluRegs32, aluImm, aluImm32, shift32Reg, shift64, shift64Reg,
    setIfRegs, setIfImm, mult, div32, div64] <;> infer_instance

end Straight

/-- Registers are 32 or 64 bits wide, and the site builds at that width. -/
structure At (c : Setting) (s : Site) : Prop where
  registers : s.registers = count
  width : s.width = c.width
  regs : c.width = Ty.i32 ∨ c.width = Ty.i64

namespace At

variable {n rd : Nat} {v x y amount : Value}

variable {c : Setting} {s : Site} (h : c.At s) {Γ : List Value} (w : Word)
include h

theorem isScalar : c.width.IsScalar := by
  rcases h.regs with hw | hw <;> rw [hw] <;> decide

theorem le_bits (hn : n ≤ 32) : n ≤ c.width.bits := by
  rcases h.regs with hw | hw <;> rw [hw]
  · exact hn
  · exact hn.trans (by decide)

theorem bits_le : c.width.bits ≤ 64 := by
  rcases h.regs with hw | hw <;> rw [hw] <;> decide

theorem known_lit (x : UInt64) : (c.lit x).Known Γ c.width := .lit h.isScalar x

theorem yields_read (hn : n < count) : s.Yields Γ 1 (read n c.width) c.width := by
  have := Site.yields_read (s := s) (Γ := Γ) (h.registers ▸ hn) (h.width ▸ h.isScalar)
  rwa [h.width] at this

theorem getReg (hn : n < 32) : s.Yields Γ 1 (c.getReg n) c.width :=
  h.yields_read (hn.trans (by decide))

theorem binop (hx : x.Known Γ c.width) (op : BinOp) (hy : y.Known Γ c.width) :
    s.Yields Γ 1 (binop op x y) c.width :=
  yields_binop hx h.regs op hy

theorem write (hn : n < count) (hv : v.Known Γ c.width) : s.Runs Γ 1 (Builder.write n v) :=
  runs_write (h.registers ▸ hn) (h.width ▸ hv)

theorem setReg (hn : n < 32) (hv : v.Known Γ c.width) : s.Runs Γ 1 (setReg n v) :=
  .ite (fun _ => runs_pure _) fun _ => h.write (hn.trans (by decide)) hv

theorem write_lo (hv : v.Known Γ c.width) : s.Runs Γ 1 (Builder.write lo v) :=
  h.write (by decide) hv

theorem write_hi (hv : v.Known Γ c.width) : s.Runs Γ 1 (Builder.write hi v) :=
  h.write (by decide) hv

theorem low (hv : v.Known Γ c.width) : s.Yields Γ 1 (low v) Ty.i32 :=
  yields_trunc hv (by decide) (h.le_bits (Nat.le_refl 32))

theorem widen (hv : v.Known Γ Ty.i32) : s.Yields Γ 1 (c.widen v) c.width :=
  yields_extend hv (by decide) h.isScalar (h.le_bits (Nat.le_refl 32))

theorem setLow (hn : n < 32) (hv : v.Known Γ Ty.i32) :
    s.Runs Γ 2 (do Setting.setReg n (← c.widen v)) :=
  (h.widen hv).runs fun _ hv => h.setReg hn hv

theorem writeLow (hn : n < count) (hv : v.Known Γ Ty.i32) :
    s.Runs Γ 2 (do Builder.write n (← c.widen v)) :=
  (h.widen hv).runs fun _ hv => h.write hn hv

theorem alu (hrd : rd < 32) (op : BinOp) (hx : x.Known Γ c.width) (hy : y.Known Γ c.width) :
    s.Runs Γ 2 (alu rd op x y) := by
  refine .ite (fun _ => ?_) fun _ => runs_pure _
  exact (h.binop hx op hy).runs fun _ hr => h.setReg hrd hr

theorem alu32 (hrd : rd < 32) (op : BinOp) (hx : x.Known Γ c.width) (hy : y.Known Γ c.width) :
    s.Runs Γ 5 (c.alu32 rd op x y) := by
  refine .ite (fun _ => ?_) fun _ => runs_pure _
  refine (h.low hx).runs fun x hx => ?_
  refine (h.low hy.tail).runs fun y hy => ?_
  exact (yields_binop hx.tail (Or.inl rfl) op hy).runs fun _ hr => h.setLow hrd hr

theorem aluRegs (op : BinOp) : s.Runs Γ 4 (c.aluRegs w op) :=
  (h.getReg w.rs_lt).runs fun _ hx => (h.getReg w.rt_lt).runs fun _ hy => h.alu w.rd_lt op hx.tail hy

theorem aluRegs32 (op : BinOp) : s.Runs Γ 7 (c.aluRegs32 w op) :=
  (h.getReg w.rs_lt).runs fun _ hx => (h.getReg w.rt_lt).runs fun _ hy => h.alu32 w.rd_lt op hx.tail hy

theorem aluImm (op : BinOp) (imm : UInt64) : s.Runs Γ 3 (c.aluImm w op imm) :=
  (h.getReg w.rs_lt).runs fun _ hx => h.alu w.rt_lt op hx (h.known_lit imm)

theorem aluImm32 (op : BinOp) (imm : UInt64) : s.Runs Γ 6 (c.aluImm32 w op imm) :=
  (h.getReg w.rs_lt).runs fun _ hx => h.alu32 w.rt_lt op hx (h.known_lit imm)

theorem shift32 (op : BinOp) (ha : amount.Known Γ Ty.i32) : s.Runs Γ 5 (c.shift32 w op amount) := by
  refine .ite (fun _ => ?_) fun _ => runs_pure _
  refine (h.getReg w.rt_lt).runs fun _ hv => ?_
  refine (h.low hv).runs fun _ hx => ?_
  exact (yields_binop hx (Or.inl rfl) op ha.tail.tail).runs fun _ hr => h.setLow w.rd_lt hr

theorem shift32Reg (op : BinOp) : s.Runs Γ 7 (c.shift32Reg w op) :=
  (h.getReg w.rs_lt).runs fun _ hv => (h.low hv).runs fun _ ha => h.shift32 w op ha

theorem sra32 (ha : amount.Known Γ c.width) : s.Runs Γ 5 (c.sra32 w amount) := by
  refine .ite (fun _ => ?_) fun _ => runs_pure _
  refine (h.getReg w.rt_lt).runs fun _ hv => ?_
  refine (h.binop hv .sra ha.tail).runs fun _ hx => ?_
  exact (h.low hx).runs fun _ hr => h.setLow w.rd_lt hr

theorem shift64Reg (op : BinOp) : s.Runs Γ 4 (c.shift64Reg w op) :=
  (h.getReg w.rt_lt).runs fun _ hx => (h.getReg w.rs_lt).runs fun _ hy => h.alu w.rd_lt op hx.tail hy

theorem shift64 (op : BinOp) (amount : UInt64) : s.Runs Γ 3 (c.shift64 w op amount) :=
  (h.getReg w.rt_lt).runs fun _ hx => h.alu w.rd_lt op hx (h.known_lit amount)

theorem setIf (hrd : rd < 32) (op : CmpOp) (hx : x.Known Γ c.width) (hy : y.Known Γ c.width) :
    s.Runs Γ 3 (c.setIf rd op x y) := by
  refine .ite (fun _ => ?_) fun _ => runs_pure _
  refine (yields_icmp hx op hy).runs fun _ hb => ?_
  exact (yields_extend hb (by decide) h.isScalar (h.le_bits (by decide))).runs
    fun _ hr => h.setReg hrd hr

theorem setIfRegs (op : CmpOp) : s.Runs Γ 5 (c.setIfRegs w op) :=
  (h.getReg w.rs_lt).runs fun _ hx => (h.getReg w.rt_lt).runs fun _ hy => h.setIf w.rd_lt op hx.tail hy

theorem setIfImm (op : CmpOp) : s.Runs Γ 4 (c.setIfImm w op) :=
  (h.getReg w.rs_lt).runs fun _ hx => h.setIf w.rt_lt op hx (h.known_lit w.simm)

theorem mult {ext : CvtOp} (hext : ext ≠ .trunc) : s.Runs Γ 14 (c.mult w ext) := by
  have hwide {Γ : List Value} {v : Value} (hv : v.Known Γ Ty.i32) :
      s.Yields Γ 1 (cvt ext Ty.i64 v) Ty.i64 :=
    yields_extend hv hext (by decide) (by decide)
  have hhalf {Γ : List Value} {v : Value} (hv : v.Known Γ Ty.i64) :
      s.Yields Γ 1 (trunc Ty.i32 v) Ty.i32 :=
    yields_trunc hv (by decide) (by decide)
  refine (h.getReg w.rs_lt).runs fun _ hv => (h.low hv).runs fun _ hv => (hwide hv).runs fun x hx => ?_
  refine (h.getReg w.rt_lt).runs fun _ hv => (h.low hv).runs fun _ hv => (hwide hv).runs fun y hy => ?_
  refine (yields_binop hx.tail.tail.tail (Or.inr rfl) .mul hy).runs fun p hp => ?_
  refine (hhalf hp).runs fun _ hlo => (h.widen hlo).runs fun _ hlo => ?_
  refine (h.write_lo hlo).bind fun _ => ?_
  refine (yields_binop hp.tail.tail (Or.inr rfl) .srl (.lit (by decide) 32)).runs fun _ hhigh => ?_
  exact (hhalf hhigh).runs fun _ hhi => h.writeLow (n := hi) (by decide) hhi

theorem div32 (quotient remainder : BinOp) : s.Runs Γ 10 (c.div32 w quotient remainder) := by
  refine (h.getReg w.rs_lt).runs fun _ hv => (h.low hv).runs fun x hx => ?_
  refine (h.getReg w.rt_lt).runs fun _ hv => (h.low hv).runs fun y hy => ?_
  refine (yields_binop hx.tail.tail (Or.inl rfl) quotient hy).runs fun _ hq => ?_
  refine (h.widen hq).runs fun _ hlo => (h.write_lo hlo).bind fun _ => ?_
  exact (yields_binop hx.tail.tail.tail.tail (Or.inl rfl) remainder hy.tail.tail).runs
    fun _ hr => h.writeLow (n := hi) (by decide) hr

theorem div64 (quotient remainder : BinOp) : s.Runs Γ 6 (c.div64 w quotient remainder) := by
  refine (h.getReg w.rs_lt).runs fun x hx => (h.getReg w.rt_lt).runs fun y hy => ?_
  refine (h.binop hx.tail quotient hy).runs fun _ hq => ?_
  refine (h.write_lo hq).bind fun _ => ?_
  exact (h.binop hx.tail.tail remainder hy.tail).runs fun _ hr => h.write_hi hr

theorem address : s.Yields Γ 5 (c.address w) Ty.i64 := by
  rw [address_eq]
  refine (h.getReg w.rs_lt).yields fun _ hbase => ?_
  refine Site.Yields.yields (.ite (fun _ => h.binop hbase .add (h.known_lit w.simm))
    fun _ => yields_pure hbase) fun _ hguest => ?_
  refine (yields_extend hguest (by decide) (by decide) h.bits_le).yields fun _ hwide => ?_
  refine Site.Yields.yields (.ite (fun _ => yields_binop hwide (Or.inr rfl) .and (.lit (by decide) _))
    fun _ => yields_pure hwide) fun _ hmasked => ?_
  exact .ite (fun _ => yields_binop hmasked (Or.inr rfl) .add (.lit (by decide) _))
    fun _ => yields_pure hmasked

theorem loadReg {t : Ty} {ext : CvtOp} (ht : t.IsScalar) (hext : ext ≠ .trunc)
    (hbits : t.bits ≤ c.width.bits) : s.Runs Γ 8 (c.loadReg w t ext) := by
  refine (h.address w).runs fun _ ha => (yields_load ha ht).runs fun _ hv => ?_
  refine .ite (fun _ => ?_) fun _ => runs_pure _
  exact (yields_extend hv hext h.isScalar hbits).runs fun _ hr => h.setReg w.rt_lt hr

theorem storeReg {t : Ty} (ht : t.IsScalar) (hbits : t.bits ≤ c.width.bits) :
    s.Runs Γ 8 (c.storeReg w t) := by
  refine (h.address w).runs fun _ ha => (h.getReg w.rt_lt).runs fun _ hv => ?_
  exact (yields_trunc hv ht hbits).runs fun _ hx => runs_store hx ha.tail.tail

theorem test (test : Test) : s.Yields Γ 3 (c.test w test) Ty.i1 := by
  cases test with
  | eq | ne =>
    exact (h.getReg w.rs_lt).yields fun _ hx => (h.getReg w.rt_lt).yields fun _ hy =>
      yields_icmp hx.tail _ hy
  | ltz | gez | lez | gtz =>
    exact Spec.le ((h.getReg w.rs_lt).yields fun _ hx => yields_icmp hx _ (h.known_lit 0)) le_rfl
      (by decide) le_rfl

/-- Every instruction fits the width it is lifted at. A multiplication is the longest. -/
theorem lift {m : Mnemonic} (hm : m.is64 = true → c.width = Ty.i64) : s.Runs Γ 14 (c.lift w m) := by
  have hwide (h64 : m.is64 = true) {n : Nat} (hn : n ≤ 64) : n ≤ c.width.bits := hm h64 ▸ hn
  cases m with
  | sll | srl => exact (h.shift32 w _ (.lit (by decide) _)).le (by decide)
  | sllv | srlv => exact (h.shift32Reg w _).le (by decide)
  | sra => exact (h.sra32 w (h.known_lit _)).le (by decide)
  | srav =>
    refine Runs.le ((h.getReg w.rs_lt).runs fun _ hx => ?_) (show 6 + 1 ≤ 14 by decide)
    exact (h.binop hx .and (h.known_lit 31)).runs fun _ ha => h.sra32 w ha
  | mfhi | mflo =>
    exact Runs.le ((h.yields_read (by decide)).runs fun _ hv => h.setReg w.rd_lt hv) (by decide)
  | mthi => exact Runs.le ((h.getReg w.rs_lt).runs fun _ hv => h.write_hi hv) (by decide)
  | mtlo => exact Runs.le ((h.getReg w.rs_lt).runs fun _ hv => h.write_lo hv) (by decide)
  | dsllv | dsrlv | dsrav => exact (h.shift64Reg w _).le (by decide)
  | dsll | dsrl | dsra | dsll32 | dsrl32 | dsra32 => exact (h.shift64 w _ _).le (by decide)
  | mult | multu => exact h.mult w (by decide)
  | div | divu => exact (h.div32 w _ _).le (by decide)
  | ddiv | ddivu => exact (h.div64 w _ _).le (by decide)
  | add | addu | sub | subu => exact (h.aluRegs32 w _).le (by decide)
  | and | or | xor | dadd | daddu | dsub | dsubu => exact (h.aluRegs w _).le (by decide)
  | nor =>
    refine Runs.le (.ite (fun _ => ?_) fun _ => runs_pure _) (show 5 ≤ 14 by decide)
    refine (h.getReg w.rs_lt).runs fun _ hx => (h.getReg w.rt_lt).runs fun _ hy => ?_
    exact (h.binop hx.tail .or hy).runs fun _ hr => (yields_not hr).runs
      fun _ hn => h.setReg w.rd_lt hn
  | slt | sltu => exact (h.setIfRegs w _).le (by decide)
  | slti | sltiu => exact (h.setIfImm w _).le (by decide)
  | addi | addiu => exact (h.aluImm32 w _ _).le (by decide)
  | andi | ori | xori | daddi | daddiu => exact (h.aluImm w _ _).le (by decide)
  | lui => exact (h.setReg w.rt_lt (h.known_lit _)).le (by decide)
  | lb | lh | lw | lbu | lhu =>
    exact (h.loadReg w (by decide) (by decide) (h.le_bits (by decide))).le (by decide)
  | lwu | ld => exact (h.loadReg w (by decide) (by decide) (hwide rfl (by decide))).le (by decide)
  | sb | sh | sw => exact (h.storeReg w (by decide) (h.le_bits (by decide))).le (by decide)
  | sd => exact (h.storeReg w (by decide) (hwide rfl (by decide))).le (by decide)
  | mfc0 =>
    refine Runs.le (.ite (fun _ => ?_) fun _ => runs_pure _) (show 4 ≤ 14 by decide)
    exact (h.yields_read (system_lt w.rd_lt)).runs fun _ hv => (h.low hv).runs
      fun _ hr => h.setLow w.rt_lt hr
  | dmfc0 =>
    exact Runs.le ((h.yields_read (system_lt w.rd_lt)).runs fun _ hv => h.setReg w.rt_lt hv)
      (by decide)
  | _ => exact runs_pure _

end At

end Setting

end Dynarec.Guest
