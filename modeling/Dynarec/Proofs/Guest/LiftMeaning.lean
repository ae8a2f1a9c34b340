import Dynarec.Proofs.Guest.Scene

/-!
# What lifted instructions do

Every instruction that does not transfer control takes the processor where executing it takes it. The
instructions are lifted in families; each family has one lemma, and an instruction is its family with an
operator put in.
-/
namespace Dynarec.Guest

open Builder Encoding Register Ty

namespace Scene

variable {k n : Nat} {m : Mnemonic} {v amount : Value} {t : Ty}

set_option synthInstance.maxSize 65536

variable {σ μ α : Type} {S : Scene σ μ} {d : Core S.width.bits μ}

theorem Acts.ite {p : Prop} [Decidable p] {a a' : Build α}
    {post : α → Core S.width.bits μ → Prop} (h : p → S.Acts a d post)
    (h' : ¬ p → S.Acts a' d post) : S.Acts (if p then a else a') d post := by
  split_ifs with hp
  · exact h hp
  · exact h' hp

/-- The result of an instruction whose target is zero is not even computed. -/
theorem acts_unless_zero {a : Build Unit} {x : BitVec S.width.bits}
    (h : S.Acts a d fun _ d' => d' = d.set n x) :
    S.Acts (if n ≠ 0 then a else pure ()) d fun _ d' => d' = d.set n x := by
  refine Acts.ite (fun _ => h) fun hn => acts_pure ?_
  rw [not_not.mp hn, Core.set_zero]

/-- A step to the state that executing the instruction gives. -/
theorem Acts.exec {a : Build α} {code : BitVec 32} {e : Core S.width.bits μ}
    (ha : S.Acts a d fun _ d' => d' = e) (he : exec S.board m code d = some e) :
    S.Acts a d fun _ d' => exec S.board m code d = some d' :=
  ha.mono fun _ _ hd => hd ▸ he

theorem zext_ofBool (n : Nat) (b : Bool) :
    CvtOp.zext.onBits n (Ty.i1.low (Eval.ofBool b)) = flag b := by
  apply BitVec.eq_of_toNat_eq
  cases b <;> simp [CvtOp.onBits, Eval.ofBool, flag, Ty.low, Ty.i1]

theorem low_half (p : BitVec 64) : CvtOp.trunc.onBits 32 p = p.extractLsb' 0 32 := by
  apply BitVec.eq_of_toNat_eq
  simp [CvtOp.onBits]

theorem high_half (p : BitVec 64) :
    CvtOp.trunc.onBits 32 (BinOp.srl.onBits p (32 : BitVec 64)) = p.extractLsb' 32 32 := by
  apply BitVec.eq_of_toNat_eq
  simp [CvtOp.onBits, BinOp.onBits, shiftModulus]

theorem onBits_setWidth {l : Nat} (h : k = l) (ext : CvtOp) (n : Nat) (v : BitVec l) :
    ext.onBits n (v.setWidth k) = ext.onBits n v := by
  subst h
  rw [BitVec.setWidth_eq]

theorem low_i64 (x : UInt64) : Ty.i64.low x = x.toBitVec := by
  simp [Ty.low, Ty.i64]

section Shifts

variable (x y : BitVec n)

theorem onBits_sll : BinOp.sll.onBits x y = x <<< (y.toNat % shiftModulus n) := rfl

theorem onBits_srl : BinOp.srl.onBits x y = x >>> (y.toNat % shiftModulus n) := rfl

theorem onBits_sra : BinOp.sra.onBits x y = x.sshiftRight (y.toNat % shiftModulus n) := rfl

end Shifts

namespace Sound

variable (hS : S.Sound) (w : Word)
include hS

theorem holds_lit (x : UInt64) :
    (S.setting.lit x).Holds S.course.values S.width (S.width.low x) :=
  Value.holds_lit _ hS.bound.isScalar x

section Registers

variable (hn : n < 32)
include hn

theorem getReg : S.Computes (S.setting.getReg n) d S.width (d.get n) := by
  rcases Nat.eq_zero_or_pos n with rfl | hpos
  · exact computes_read_zero hS
  · have hne : n ≠ pc := by
      simp only [pc]
      omega
    have hlt : n < count := by
      simp only [count]
      omega
    exact computes_read hS (Nat.ne_of_gt hpos) hlt hne

theorem setReg {x : BitVec S.width.bits} (hv : v.Holds S.course.values S.width x) :
    S.Acts (Setting.setReg n v) d fun _ d' => d' = d.set n x := by
  unfold Setting.setReg
  refine Acts.ite (fun hz => acts_pure ?_) fun hz => acts_write hS hz ?_ hv
  · rw [hz, Core.set_zero]
  · simp only [count]
    omega

end Registers

section Words

variable {x : BitVec S.width.bits} (hv : v.Holds S.course.values S.width x)
include hv

theorem low : S.Computes (Setting.low v) d i32 (Encoding.low x) :=
  computes_cvt hS.bound.isScalar hv .trunc (by decide)

theorem setRd : S.Acts (Setting.setReg w.rd v) d fun _ d' => d' = d.set (rd w.code) x := by
  rw [w.code_rd]
  exact hS.setReg w.rd_lt hv

theorem setRt : S.Acts (Setting.setReg w.rt v) d fun _ d' => d' = d.set (rt w.code) x := by
  rw [w.code_rt]
  exact hS.setReg w.rt_lt hv

theorem writeHi : S.Acts (write hi v) d fun _ d' => d' = d.set hi x :=
  acts_write hS (by decide) (by decide) hv

theorem writeLo : S.Acts (write lo v) d fun _ d' => d' = d.set lo x :=
  acts_write hS (by decide) (by decide) hv

end Words

theorem widen {x : BitVec 32} (hv : v.Holds S.course.values i32 x) :
    S.Computes (S.setting.widen v) d S.width (wide x) :=
  computes_cvt (by decide) hv .sext hS.bound.isScalar

theorem setWide (hn : n < 32) {x : BitVec 32} (hv : v.Holds S.course.values i32 x) :
    S.Acts (do Setting.setReg n (← S.setting.widen v)) d fun _ d' => d' = d.set n (wide x) :=
  (hS.widen hv).acts fun _ hr => hS.setReg hn hr

section Arithmetic

variable (hn : n < 32) (op : BinOp) {x y : Value} {a b : BitVec S.width.bits}
  (hx : x.Holds S.course.values S.width a) (hy : y.Holds S.course.values S.width b)
include hn hx hy

theorem alu :
    S.Acts (Setting.alu n op x y) d fun _ d' => d' = d.set n (op.onBits a b) :=
  acts_unless_zero ((computes_binop hS.bound.isScalar hx op hy).acts fun _ hr => hS.setReg hn hr)

theorem alu32 : S.Acts (S.setting.alu32 n op x y) d fun _ d' =>
    d' = d.set n (wide (op.onBits (Encoding.low a) (Encoding.low b))) := by
  refine acts_unless_zero ((hS.low hx).acts fun _ hl => (hS.low hy).acts fun _ hm => ?_)
  exact (computes_binop (by decide) hl op hm).acts fun _ hr => hS.setWide hn hr

theorem setIf (op : CmpOp) : S.Acts (S.setting.setIf n op x y) d fun _ d' =>
    d' = d.set n (flag (op.onBits a b)) := by
  refine acts_unless_zero ((computes_icmp hS.bound.isScalar hx op hy).acts fun _ hc => ?_)
  refine (computes_cvt (by decide) hc .zext hS.bound.isScalar).acts fun _ hr => ?_
  rw [zext_ofBool] at hr
  exact hS.setReg hn hr

end Arithmetic

/-! The fields of the word stand in what a family does as the processor reads them. -/

theorem getRs : S.Computes (S.setting.getReg w.rs) d S.width (d.get (rs w.code)) := by
  rw [w.code_rs]
  exact hS.getReg w.rs_lt

theorem getRt : S.Computes (S.setting.getReg w.rt) d S.width (d.get (rt w.code)) := by
  rw [w.code_rt]
  exact hS.getReg w.rt_lt

theorem aluRegs (op : BinOp) : S.Acts (S.setting.aluRegs w op) d fun _ d' =>
    d' = d.set (rd w.code)
      (op.onBits (d.get (rs w.code)) (d.get (rt w.code))) := by
  rw [w.code_rd]
  exact (hS.getRs w).acts fun _ hx => (hS.getRt w).acts fun _ hy => hS.alu w.rd_lt op hx hy

theorem aluRegs32 (op : BinOp) : S.Acts (S.setting.aluRegs32 w op) d fun _ d' =>
    d' = d.set (rd w.code) (wide (op.onBits
      (Encoding.low (d.get (rs w.code))) (Encoding.low (d.get (rt w.code))))) := by
  rw [w.code_rd]
  exact (hS.getRs w).acts fun _ hx => (hS.getRt w).acts fun _ hy => hS.alu32 w.rd_lt op hx hy

theorem aluImm (op : BinOp) (imm : UInt64) : S.Acts (S.setting.aluImm w op imm) d fun _ d' =>
    d' = d.set (rt w.code) (op.onBits (d.get (rs w.code)) (S.width.low imm)) := by
  rw [w.code_rt]
  exact (hS.getRs w).acts fun _ hx => hS.alu w.rt_lt op hx (hS.holds_lit imm)

theorem aluImm32 (op : BinOp) (imm : UInt64) : S.Acts (S.setting.aluImm32 w op imm) d
    fun _ d' => d' = d.set (rt w.code) (wide
      (op.onBits (Encoding.low (d.get (rs w.code))) (Encoding.low (S.width.low imm)))) := by
  rw [w.code_rt]
  exact (hS.getRs w).acts fun _ hx => hS.alu32 w.rt_lt op hx (hS.holds_lit imm)

theorem shift32 (op : BinOp) {a : BitVec 32} (ha : amount.Holds S.course.values i32 a) :
    S.Acts (S.setting.shift32 w op amount) d fun _ d' => d' = d.set (rd w.code)
      (wide (op.onBits (Encoding.low (d.get (rt w.code))) a)) := by
  rw [w.code_rd]
  refine acts_unless_zero ((hS.getRt w).acts fun _ hy => (hS.low hy).acts fun _ hl => ?_)
  exact (computes_binop (by decide) hl op ha).acts fun _ hr => hS.setWide w.rd_lt hr

theorem shift32Reg (op : BinOp) : S.Acts (S.setting.shift32Reg w op) d fun _ d' =>
    d' = d.set (rd w.code) (wide (op.onBits
      (Encoding.low (d.get (rt w.code))) (Encoding.low (d.get (rs w.code))))) :=
  (hS.getRs w).acts fun _ hx => (hS.low hx).acts fun _ ha => hS.shift32 w op ha

theorem sra32 {a : BitVec S.width.bits} (ha : amount.Holds S.course.values S.width a) :
    S.Acts (S.setting.sra32 w amount) d fun _ d' => d' = d.set (rd w.code)
      (wide (Encoding.low (BinOp.sra.onBits (d.get (rt w.code)) a))) := by
  rw [w.code_rd]
  refine acts_unless_zero ((hS.getRt w).acts fun _ hy => ?_)
  refine (computes_binop hS.bound.isScalar hy .sra ha).acts fun _ hx => ?_
  exact (hS.low hx).acts fun _ hl => hS.setWide w.rd_lt hl

theorem shift64Reg (op : BinOp) : S.Acts (S.setting.shift64Reg w op) d fun _ d' =>
    d' = d.set (rd w.code)
      (op.onBits (d.get (rt w.code)) (d.get (rs w.code))) := by
  rw [w.code_rd]
  exact (hS.getRt w).acts fun _ hy => (hS.getRs w).acts fun _ hx => hS.alu w.rd_lt op hy hx

theorem shift64 (op : BinOp) (amount : UInt64) : S.Acts (S.setting.shift64 w op amount) d fun _ d' =>
    d' = d.set (rd w.code) (op.onBits (d.get (rt w.code)) (S.width.low amount)) := by
  rw [w.code_rd]
  exact (hS.getRt w).acts fun _ hy => hS.alu w.rd_lt op hy (hS.holds_lit amount)

theorem setIfRegs (op : CmpOp) : S.Acts (S.setting.setIfRegs w op) d fun _ d' =>
    d' = d.set (rd w.code)
      (flag (op.onBits (d.get (rs w.code)) (d.get (rt w.code)))) := by
  rw [w.code_rd]
  exact (hS.getRs w).acts fun _ hx => (hS.getRt w).acts fun _ hy => hS.setIf w.rd_lt hx hy op

theorem setIfImm (op : CmpOp) : S.Acts (S.setting.setIfImm w op) d fun _ d' =>
    d' = d.set (rt w.code)
      (flag (op.onBits (d.get (rs w.code)) (S.width.low w.simm))) := by
  rw [w.code_rt]
  exact (hS.getRs w).acts fun _ hx => hS.setIf w.rt_lt hx (hS.holds_lit w.simm) op

theorem mult (ext : CvtOp) : S.Acts (S.setting.mult w ext) d fun _ d' =>
    let p := ext.onBits 64 (Encoding.low (d.get (rs w.code))) *
      ext.onBits 64 (Encoding.low (d.get (rt w.code)))
    d' = setHiLo d (wide (p.extractLsb' 32 32))
      (wide (p.extractLsb' 0 32)) := by
  refine (hS.getRs w).acts fun _ hx => (hS.low hx).acts fun _ hl => ?_
  refine (computes_cvt (u := i64) (by decide) hl ext (by decide)).acts fun _ hx => ?_
  refine (hS.getRt w).acts fun _ hy => (hS.low hy).acts fun _ hm => ?_
  refine (computes_cvt (u := i64) (by decide) hm ext (by decide)).acts fun _ hy => ?_
  refine (computes_binop (by decide) hx .mul hy).acts fun _ hp => ?_
  refine (computes_cvt (u := i32) (by decide) hp .trunc (by decide)).acts fun _ hl => ?_
  refine (hS.widen hl).acts fun _ hr => (hS.writeLo hr).bind ?_
  rintro _ _ rfl
  refine (computes_binop (by decide) hp .srl (Value.holds_lit _ (by decide) 32)).acts fun _ hh => ?_
  refine (computes_cvt (u := i32) (by decide) hh .trunc (by decide)).acts fun _ hl' => ?_
  refine (hS.widen hl').acts fun _ hr' => (hS.writeHi hr').mono ?_
  rintro _ _ rfl
  dsimp only
  rw [← low_half, ← high_half]
  rfl

theorem div32 (quotient remainder : BinOp) :
    S.Acts (S.setting.div32 w quotient remainder) d fun _ d' =>
      let x := Encoding.low (d.get (rs w.code))
      let y := Encoding.low (d.get (rt w.code))
      d' = setHiLo d (wide (remainder.onBits x y))
        (wide (quotient.onBits x y)) := by
  refine (hS.getRs w).acts fun _ hx => (hS.low hx).acts fun _ hx => ?_
  refine (hS.getRt w).acts fun _ hy => (hS.low hy).acts fun _ hy => ?_
  refine (computes_binop (by decide) hx quotient hy).acts fun _ hq => ?_
  refine (hS.widen hq).acts fun _ hr => (hS.writeLo hr).bind ?_
  rintro _ _ rfl
  refine (computes_binop (by decide) hx remainder hy).acts fun _ hm => ?_
  exact (hS.widen hm).acts fun _ hr => hS.writeHi hr

theorem div64 (quotient remainder : BinOp) :
    S.Acts (S.setting.div64 w quotient remainder) d fun _ d' =>
      let x := d.get (rs w.code)
      let y := d.get (rt w.code)
      d' = setHiLo d (remainder.onBits x y) (quotient.onBits x y) := by
  have ht := hS.bound.isScalar
  refine (hS.getRs w).acts fun _ hx => (hS.getRt w).acts fun _ hy => ?_
  refine (computes_binop ht hx quotient hy).acts fun _ hq => (hS.writeLo hq).bind ?_
  rintro _ _ rfl
  exact (computes_binop ht hx remainder hy).acts fun _ hm => hS.writeHi hm

theorem address : S.Computes (S.setting.address w) d i64
    (S.board.target w.code d).toBitVec := by
  have ht := hS.bound.isScalar
  have hle := ht.bits_le
  rw [Setting.address_eq]
  refine (hS.getReg w.rs_lt).bind fun _ hx => ?_
  have hguest : ∀ {v : Value}, v.Holds S.course.values S.width (d.get w.rs) →
      S.Computes (if w.imm ≠ 0 then binop .add v (S.setting.lit w.simm) else pure v) d S.width
        (d.get w.rs + (imm w.code).signExtend S.width.bits) := by
    intro v hv
    split_ifs with himm
    · have hsum := computes_binop (d := d) ht hv .add (hS.holds_lit w.simm)
      rwa [w.low_simm hle] at hsum
    · rw [w.code_imm_eq_zero (not_not.mp himm)]
      simpa [BitVec.signExtend] using computes_pure hv
  refine (hguest hx).bind fun _ hg => ?_
  refine (computes_cvt (u := i64) ht hg .zext (by decide)).bind fun _ hw => ?_
  -- The mask and the base are left out where they would change nothing.
  have hunless (op : BinOp) {x neutral : UInt64} {v : Value} {a : BitVec i64.bits}
      (hsame : op.onBits a neutral.toBitVec = a) (hv : v.Holds S.course.values i64 a) :
      S.Computes (if x ≠ neutral then binop op v (Value.lit i64 x) else pure v) d i64
        (op.onBits a x.toBitVec) := by
    split_ifs with hx
    · have hop := computes_binop (d := d) (by decide) hv op
        (Value.holds_lit S.course.values (t := i64) (by decide) x)
      rwa [low_i64] at hop
    · rw [not_not.mp hx, hsame]
      exact computes_pure hv
  refine (hunless .and BitVec.and_allOnes hw).bind fun _ hm => ?_
  have htarget : (S.board.target w.code d).toBitVec =
      (CvtOp.zext.onBits 64
        (d.get w.rs + (imm w.code).signExtend S.width.bits) &&&
          S.board.map.mask.toBitVec) + S.board.map.base.toBitVec := by
    rw [← w.code_rs]
    rfl
  rw [htarget]
  exact hunless .add (BitVec.add_zero _) hm

theorem loadReg (ht : t.IsScalar) (ext : CvtOp) :
    S.Tries (S.setting.loadReg w t ext) d
      (S.board.load w.code d t.accessBytes
          (fun v => ext.onBits S.width.bits (v.setWidth t.bits)) = none ∧
        S.Refused (.loadFault (S.board.target w.code d), { d with memory :=
          (S.board.bus.load d.memory t.accessBytes (S.board.target w.code d)).2 }))
      fun _ d' =>
        S.board.load w.code d t.accessBytes
          (fun v => ext.onBits S.width.bits (v.setWidth t.bits)) = some d' := by
  refine (hS.address w).tries fun _ ha => ((tries_load hS ha ht).mono ?_ fun _ _ h => h).bind ?_
  · rintro ⟨memory, hload, hrefused⟩
    have hnone : S.board.bus.load d.memory t.accessBytes (S.board.target w.code d) =
      (none, memory) := hload
    refine ⟨by simp only [Board.load, hnone], ?_⟩
    rw [hnone]
    exact hrefused
  · rintro v _ ⟨y, memory, hload, hv, rfl⟩
    have hset : S.Acts (if w.rt ≠ 0 then do Setting.setReg w.rt (← cvt ext S.width v) else pure ())
        { d with memory } fun _ d' =>
          d' = { d with memory }.set w.rt (ext.onBits S.width.bits (t.low y)) :=
      acts_unless_zero ((computes_cvt ht hv ext hS.bound.isScalar).acts fun _ hr =>
        hS.setReg w.rt_lt hr)
    refine hset.mono ?_
    rintro _ _ rfl
    have hcut : (y.toBitVec.setWidth (8 * t.accessBytes)).setWidth t.bits = t.low y :=
      BitVec.setWidth_setWidth_of_le _ ht.bits_le_access
    simp only [Board.load, hload, hcut, w.code_rt]

theorem storeReg (ht : t.IsScalar) (hbytes : t.bits = 8 * t.accessBytes) :
    S.Tries (S.setting.storeReg w t) d
      (S.board.store w.code d t.accessBytes = none ∧
        S.Refused (.storeFault (S.board.target w.code d), { d with memory :=
          (S.board.bus.store d.memory t.accessBytes (S.board.target w.code d)
            ⟨((d.get (rt w.code)).setWidth (8 * t.accessBytes)).setWidth 64⟩).2 }))
      fun _ d' => S.board.store w.code d t.accessBytes = some d' := by
  refine (hS.address w).tries fun _ ha => (hS.getReg w.rt_lt).tries fun _ hy => ?_
  refine (computes_cvt (u := t) hS.bound.isScalar hy .trunc ht).tries fun v hv => ?_
  have hword : v.eval S.course.values =
      ⟨((d.get (rt w.code)).setWidth (8 * t.accessBytes)).setWidth 64⟩ := by
    have hlt := Nat.mod_lt (d.get w.rt).toNat (show 0 < 2 ^ t.bits by positivity)
    have hle := Nat.pow_le_pow_right (n := 2) (by norm_num) ht.bits_le
    rw [← UInt64.toNat_inj, hv.toNat_eval ht, w.code_rt]
    simp only [CvtOp.onBits, UInt64.toNat_ofBitVec, BitVec.toNat_setWidth, ← hbytes]
    exact (Nat.mod_eq_of_lt (by omega)).symm
  refine (tries_store hS ha hv.ty).mono ?_ ?_
  · rintro ⟨memory, hstore, hrefused⟩
    rw [hword] at hstore
    have hfalse : S.board.bus.store d.memory t.accessBytes (S.board.target w.code d) _ =
      (false, memory) := hstore
    refine ⟨by simp only [Board.store, hfalse], ?_⟩
    rw [hfalse]
    exact hrefused
  · rintro _ _ ⟨memory, hstore, rfl⟩
    simp only [Board.store, ← hword, hstore]

theorem readSystem (hn : n < 32) :
    S.Computes (read (system n) S.width) d S.width (d.get (system n)) := by
  refine computes_read hS ?_ (system_lt hn) ?_
  · simp only [system]
    omega
  · simp only [system, pc]
    omega

theorem low_signExtend (x : BitVec k) :
    Encoding.low (x.signExtend S.width.bits) = x.signExtend 32 := by
  refine Word.setWidth_signExtend x ?_
  rcases hS.bound.width with h | h <;> rw [h] <;> decide

omit hS in
theorem amount_eq (ht : t = i32 ∨ t = i64) {x : UInt64} (hn : n < 32 ∨ n < 64 ∧ t = i64)
    (hx : x.toNat = n) : (t.low x).toNat % shiftModulus t.bits = n := by
  rw [toNat_low, hx]
  rcases ht with rfl | rfl
  · have hlt : n < 32 := hn.elim id fun h => absurd h.2 (by decide)
    change n % 2 ^ 32 % 32 = n
    omega
  · change n % 2 ^ 64 % 64 = n
    omega

omit hS in
theorem low_amount (x : BitVec n) : (Encoding.low x).toNat % shiftModulus 32 = x.toNat % 32 := by
  change (x.setWidth 32).toNat % 32 = _
  rw [BitVec.toNat_setWidth]
  omega

omit hS in
theorem and_amount (ht : t = i32 ∨ t = i64) (x : BitVec t.bits) :
    (BinOp.and.onBits x (t.low 31)).toNat % shiftModulus t.bits = x.toNat % 32 := by
  have hand : (x &&& t.low 31).toNat = x.toNat % 32 := by
    rw [BitVec.toNat_and, toNat_low]
    rcases ht with rfl | rfl
    · exact Nat.and_two_pow_sub_one_eq_mod _ 5
    · exact Nat.and_two_pow_sub_one_eq_mod _ 5
  rw [BinOp.onBits, hand]
  rcases ht with rfl | rfl
  · change x.toNat % 32 % 32 = _
    omega
  · change x.toNat % 32 % 64 = _
    omega

/-- Every instruction that neither transfers control nor uses the bus does what the processor does. -/
theorem lift_plain (hm : m.control = .none) (haccess : Encoding.access m = .none)
    (h64 : m.is64 = true → S.width = i64) :
    S.Acts (S.setting.lift w m) d fun _ d' => Encoding.exec S.board m w.code d = some d' := by
  have hwidth := hS.bound.width
  have hle := hS.bound.isScalar.bits_le
  have hsa : w.sa.toNat = sa w.code := w.code_sa.symm
  have hlt : sa w.code < 32 := (w.code.extractLsb' 6 5).isLt
  have hsa32 : (w.sa + 32).toNat = sa w.code + 32 := by
    rw [UInt64.toNat_add, hsa]
    change (_ + 32) % 2 ^ 64 = _
    omega
  have hlit : (Value.lit i32 w.sa).Holds S.course.values i32 (w.sa.toBitVec.setWidth 32) :=
    Value.holds_lit _ (by decide) w.sa
  have hamount : (w.sa.toBitVec.setWidth 32).toNat % shiftModulus 32 = sa w.code :=
    amount_eq (t := i32) (Or.inl rfl) (Or.inl hlt) hsa
  have hshort := amount_eq hwidth (Or.inl hlt) hsa
  have hlong (h : m.is64 = true) := amount_eq hwidth (Or.inr ⟨by omega, h64 h⟩) hsa32
  have hwide : m.is64 = true → shiftModulus S.width.bits = 64 := fun h => by
    rw [h64 h]
    rfl
  cases m with
  | sll => exact (hS.shift32 w .sll hlit).exec (by rw [onBits_sll, hamount]; rfl)
  | srl => exact (hS.shift32 w .srl hlit).exec (by rw [onBits_srl, hamount]; rfl)
  | sra => exact (hS.sra32 w (hS.holds_lit w.sa)).exec (by rw [onBits_sra, hshort]; rfl)
  | sllv => exact (hS.shift32Reg w .sll).exec (by rw [onBits_sll, low_amount]; rfl)
  | srlv => exact (hS.shift32Reg w .srl).exec (by rw [onBits_srl, low_amount]; rfl)
  | srav =>
    refine (hS.getRs w).acts fun _ hx => ?_
    refine (computes_binop hS.bound.isScalar hx .and (hS.holds_lit 31)).acts fun _ ha => ?_
    exact (hS.sra32 w ha).exec (by rw [onBits_sra, and_amount hwidth]; rfl)
  | dsll => exact (hS.shift64 w .sll w.sa).exec (by rw [onBits_sll, hshort]; rfl)
  | dsrl => exact (hS.shift64 w .srl w.sa).exec (by rw [onBits_srl, hshort]; rfl)
  | dsra => exact (hS.shift64 w .sra w.sa).exec (by rw [onBits_sra, hshort]; rfl)
  | dsll32 => exact (hS.shift64 w .sll (w.sa + 32)).exec (by rw [onBits_sll, hlong rfl]; rfl)
  | dsrl32 => exact (hS.shift64 w .srl (w.sa + 32)).exec (by rw [onBits_srl, hlong rfl]; rfl)
  | dsra32 => exact (hS.shift64 w .sra (w.sa + 32)).exec (by rw [onBits_sra, hlong rfl]; rfl)
  | dsllv => exact (hS.shift64Reg w .sll).exec (by rw [onBits_sll, hwide rfl]; rfl)
  | dsrlv => exact (hS.shift64Reg w .srl).exec (by rw [onBits_srl, hwide rfl]; rfl)
  | dsrav => exact (hS.shift64Reg w .sra).exec (by rw [onBits_sra, hwide rfl]; rfl)
  | mfhi | mflo =>
    refine (computes_read hS (by decide) (by decide) (by decide)).acts fun _ hv => ?_
    exact (hS.setRd w hv).exec rfl
  | mthi => exact (hS.getRs w).acts fun _ hv => (hS.writeHi hv).exec rfl
  | mtlo => exact (hS.getRs w).acts fun _ hv => (hS.writeLo hv).exec rfl
  | mult => exact (hS.mult w .sext).exec rfl
  | multu => exact (hS.mult w .zext).exec rfl
  | div => exact (hS.div32 w .sdiv .srem).exec rfl
  | divu => exact (hS.div32 w .udiv .urem).exec rfl
  | ddiv => exact (hS.div64 w .sdiv .srem).exec rfl
  | ddivu => exact (hS.div64 w .udiv .urem).exec rfl
  | add | addu => exact (hS.aluRegs32 w .add).exec rfl
  | sub | subu => exact (hS.aluRegs32 w .sub).exec rfl
  | and => exact (hS.aluRegs w .and).exec rfl
  | or => exact (hS.aluRegs w .or).exec rfl
  | xor => exact (hS.aluRegs w .xor).exec rfl
  | dadd | daddu => exact (hS.aluRegs w .add).exec rfl
  | dsub | dsubu => exact (hS.aluRegs w .sub).exec rfl
  | slt => exact (hS.setIfRegs w .slt).exec rfl
  | sltu => exact (hS.setIfRegs w .ult).exec rfl
  | nor =>
    refine (acts_unless_zero (x := ~~~(d.get (rs w.code) ||| d.get (rt w.code)))
      ?_).exec (by rw [← w.code_rd]; rfl)
    refine (hS.getRs w).acts fun _ hx => (hS.getRt w).acts fun _ hy => ?_
    refine (computes_binop hS.bound.isScalar hx .or hy).acts fun _ ho => ?_
    exact (computes_not hS.bound.isScalar ho).acts fun _ hr => hS.setReg w.rd_lt hr
  | addi | addiu =>
    exact (hS.aluImm32 w .add w.simm).exec (by rw [w.low_simm hle, low_signExtend hS]; rfl)
  | daddi | daddiu => exact (hS.aluImm w .add w.simm).exec (by rw [w.low_simm hle]; rfl)
  | slti => exact (hS.setIfImm w .slt).exec (by rw [w.low_simm hle]; rfl)
  | sltiu => exact (hS.setIfImm w .ult).exec (by rw [w.low_simm hle]; rfl)
  | andi => exact (hS.aluImm w .and w.imm).exec (by rw [w.low_imm hle]; rfl)
  | ori => exact (hS.aluImm w .or w.imm).exec (by rw [w.low_imm hle]; rfl)
  | xori => exact (hS.aluImm w .xor w.imm).exec (by rw [w.low_imm hle]; rfl)
  | lui => exact (hS.setRt w (hS.holds_lit w.upper)).exec (by rw [w.low_upper hle]; rfl)
  | mfc0 =>
    refine (acts_unless_zero (x := wide (Encoding.low (d.get (system w.rd))))
      ?_).exec (by rw [← w.code_rd, ← w.code_rt]; rfl)
    refine (hS.readSystem w.rd_lt).acts fun _ hv => (hS.low hv).acts fun _ hl => ?_
    exact hS.setWide w.rt_lt hl
  | dmfc0 =>
    refine (hS.readSystem w.rd_lt).acts fun _ hv => (hS.setRt w hv).exec ?_
    rw [← w.code_rd]
    rfl
  | sync | cache => exact acts_pure rfl
  | lb | lh | lw | lbu | lhu | lwu | ld | sb | sh | sw | sd => cases haccess
  | _ => cases hm

/-- Every instruction that does not transfer control does what the processor does. It stops the run
just if the bus refuses its access. -/
theorem lift (hm : m.control = .none) (h64 : m.is64 = true → S.width = i64) :
    S.Tries (S.setting.lift w m) d (exec S.board m w.code d = none ∧
        S.Refused (refusal S.board m w.code d))
      fun _ d' => exec S.board m w.code d = some d' := by
  have hload {t : Ty} (ht : t.IsScalar) (hbits : t.bits = 8 * t.accessBytes) (ext : CvtOp) :
      S.Tries (S.setting.loadReg w t ext) d
        (S.board.load w.code d t.accessBytes (ext.onBits S.width.bits) = none ∧
          S.Refused (.loadFault (S.board.target w.code d), { d with memory :=
            (S.board.bus.load d.memory t.accessBytes (S.board.target w.code d)).2 }))
        fun _ d' => S.board.load w.code d t.accessBytes (ext.onBits S.width.bits) = some d' := by
    have hsame : (fun v : BitVec (8 * t.accessBytes) => ext.onBits S.width.bits (v.setWidth t.bits)) =
        ext.onBits S.width.bits := funext fun v => onBits_setWidth hbits ext _ v
    have htries := hS.loadReg w (d := d) ht ext
    rwa [hsame] at htries
  cases haccess : access m with
  | none => exact (hS.lift_plain w hm haccess h64).tries _
  | load bytes =>
    cases m with
    | lb => exact hload (t := i8) (by decide) rfl .sext
    | lh => exact hload (t := i16) (by decide) rfl .sext
    | lw => exact hload (t := i32) (by decide) rfl .sext
    | lbu => exact hload (t := i8) (by decide) rfl .zext
    | lhu => exact hload (t := i16) (by decide) rfl .zext
    | lwu => exact hload (t := i32) (by decide) rfl .zext
    | ld => exact hload (t := i64) (by decide) rfl .zext
    | _ => cases haccess
  | store bytes =>
    cases m with
    | sb => exact hS.storeReg w (t := i8) (by decide) rfl
    | sh => exact hS.storeReg w (t := i16) (by decide) rfl
    | sw => exact hS.storeReg w (t := i32) (by decide) rfl
    | sd => exact hS.storeReg w (t := i64) (by decide) rfl
    | _ => cases haccess

end Sound

end Scene

end Dynarec.Guest
