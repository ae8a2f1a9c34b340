import Dynarec.Proofs.Graph.Eval
import Dynarec.Proofs.Native.Operands

/-!
# Scalar operations in registers

A scratch register has a word of a type when its upper bits are zero. Masking cuts a register to a type,
widening repeats the sign. The operations on whole registers give the low bits that the evaluator gives,
so that a mask behind them, where it is needed, leaves the word of the evaluator.
-/
namespace Dynarec.Native

open Machine Select BitVec Function State Dynarec.Except

variable {r : Reg} {op : BinOp}

variable {F : Set UInt64} {s : State} {t : Ty} {x y : UInt64}

theorem and_mask_eq (hle : t.bits ≤ 64) (x : UInt64) :
    (⟨(x.toBitVec.setWidth t.bits).setWidth 64⟩ : UInt64) = x &&& t.mask := by
  apply UInt64.toNat_inj.mp
  have hlt : x.toNat % 2 ^ t.bits < 2 ^ 64 := (Nat.mod_le _ _).trans_lt x.toNat_lt
  show ((x.toBitVec.setWidth t.bits).setWidth 64).toNat = _
  rw [toNat_setWidth, toNat_setWidth, UInt64.toNat_toBitVec, Nat.mod_eq_of_lt hlt,
    Ty.toNat_and_mask hle]

/-- The code runs through, it works on scratch registers only, and `P` holds behind it. -/
def Yields (F : Set UInt64) (code : Code) (s : State) (P : State → Prop) : Prop :=
  ∃ s', Runs code s [] s' ∧ Works F s s' ∧ P s'

section Yields

variable {P Q : State → Prop} {code code' : Code} {s' : State}

theorem yields_nil (h : P s) : Yields F [] s P :=
  ⟨s, .refl, .refl F s, h⟩

theorem yields_instr {i : Machine.Instr} (hi : i.exec s = .ok s') (hw : Works F s s') (h : P s') :
    Yields F [i] s P :=
  ⟨s', .instr hi .refl, hw, h⟩

theorem Yields.seq (h : Yields F code s P)
    (h' : ∀ {s'}, Works F s s' → P s' → Yields F code' s' Q) : Yields F (code ++ code') s Q := by
  obtain ⟨s₁, hrun, hw, hP⟩ := h
  obtain ⟨s₂, hrun', hw', hQ⟩ := h' hw hP
  exact ⟨s₂, hrun.seq hrun', hw.trans hw', hQ⟩

theorem Yields.mono (h : Yields F code s P) (himp : ∀ {s'}, Works F s s' → P s' → Q s') :
    Yields F code s Q := by
  obtain ⟨s', hrun, hw, hP⟩ := h
  exact ⟨s', hrun, hw, himp hw hP⟩

theorem yields_setReg {i : Machine.Instr} {f : Option Flags} (hr : r ∈ scratch)
    (hi : i.exec s = .ok { s.setReg r x with flags := f }) (h : P { s.setReg r x with flags := f })
    : Yields F [i] s P :=
  yields_instr hi ((Works.setReg F s hr x).trans (.flags F _ f)) h

theorem yields_loadImm (F : Set UInt64) (s : State) (hr : r ∈ scratch) (x : UInt64) :
    Yields F [.loadImm r x] s fun s' =>
      s'.regs = update s.regs r x ∧ s'.flags = s.flags :=
  yields_instr (Machine.Instr.exec_loadImm r x s) (.setReg F s hr x) ⟨rfl, rfl⟩

end Yields

/-- A mask cuts a scratch register to a type and leaves the others. -/
theorem yields_mask (F : Set UInt64) (s : State) (ht : t.IsScalar) (hr : r ∈ scratch) :
    Yields F (mask t r) s fun s' =>
      s'.regs = update s.regs r (s.regs r &&& t.mask) := by
  have hcut := and_mask_eq ht.bits_le (s.regs r)
  rcases ht.cases with rfl | rfl | rfl | rfl | rfl
  rotate_left 4
  · have hx : s.regs r &&& Ty.i64.mask = s.regs r :=
      (Ty.fits_iff_lt (by decide) _).mpr (s.regs r).toNat_lt
    exact yields_nil (by rw [hx, update_eq_self])
  · have hand : (⟨((s.regs r).toBitVec.setWidth 32 &&& (1 : Int32).toBitVec.signExtend 32).setWidth
        64⟩ : UInt64) = s.regs r &&& Ty.i1.mask := by
      apply UInt64.toNat_inj.mp
      have hone : ((1 : Int32).toBitVec.signExtend 32).toNat = 1 := by decide
      show (setWidth 64 _).toNat = _
      rw [Ty.toNat_and_mask (by decide), toNat_setWidth, toNat_and, hone,
        Nat.and_one_is_mod, toNat_setWidth, UInt64.toNat_toBitVec]
      show _ = (s.regs r).toNat % 2 ^ 1
      omega
    rw [← hand]
    exact yields_setReg hr rfl rfl
  all_goals
    rw [← hcut]
    exact yields_setReg hr rfl rfl

theorem eq_zero_or_one (hx : Ty.i1.Fits x) : x = 0 ∨ x = 1 := by
  have hlt : x.toNat < 2 := (Ty.fits_iff_lt (by decide) x).mp hx
  rw [← UInt64.toNat_inj, ← UInt64.toNat_inj]
  show x.toNat = 0 ∨ x.toNat = 1
  omega

/-- Widening repeats the sign of a word in a scratch register and leaves the others. -/
theorem yields_widen (F : Set UInt64) (s : State) (ht : t.IsScalar) (hr : r ∈ scratch)
    (hx : t.Fits (s.regs r)) :
    Yields F (widen t r) s fun s' =>
      s'.regs = update s.regs r (Eval.signed t (s.regs r)).toUInt64 := by
  have hcut : (⟨((s.regs r).toBitVec.setWidth t.bits).signExtend 64⟩ : UInt64) =
      (Eval.signed t (s.regs r)).toUInt64 := by
    apply UInt64.toBitVec_inj.mp
    exact (Eval.signed_toBitVec ht _).symm
  rcases ht.cases with rfl | rfl | rfl | rfl | rfl
  rotate_left 4
  · exact yields_nil (update_eq_self r s.regs).symm
  · have hneg : (⟨-(s.regs r).toBitVec.setWidth 64⟩ : UInt64) =
        (Eval.signed .i1 (s.regs r)).toUInt64 := by
      rcases eq_zero_or_one hx with h | h <;> rw [h] <;> decide
    rw [← hneg]
    exact yields_setReg hr rfl rfl
  all_goals
    rw [← hcut]
    exact yields_setReg hr rfl rfl

/-- The result of an instruction has a home with room for it. -/
structure Homes.Houses (h : Homes) (i : Dynarec.Instr) : Prop where
  plain : (h.get i.res).IsPlain
  room : ∀ {disp n}, h.get i.res = .spill disp n → n = i.ty.bytes

variable {h : Homes} {i : Dynarec.Instr} {v w : Value} {code : Code}

theorem Yields.settles {front back : Code} (hc : Yields F front s fun s' => s'.regs r = x)
    (hf : h.Framed F s) (hh : h.Houses i) (ht : i.ty.IsScalar)
    (hback : store h i r = .ok back) (hx : i.ty.Fits x) :
    ∃ s', Runs (front ++ back) s [] s' ∧ Settles F [] (h.get i.res) x s s' := by
  obtain ⟨s₁, hrun, hw, rfl⟩ := hc
  have hlt := (Ty.fits_iff_lt ht.bits_le _).mp hx
  obtain ⟨s₂, hrun', hs⟩ := runs_store (hf.works hw) hback hh.plain fun disp n hspill => by
    rw [hh.room hspill]
    refine hlt.trans_le (Nat.pow_le_pow_right (by decide) (ht.bits_le_access.trans ?_))
    exact Nat.mul_le_mul_left 8 (min_le_left _ _)
  exact ⟨s₂, hrun.seq hrun', hw.settles hs⟩

theorem yields_load (hf : h.Framed F s) (hr : r ∈ scratch) (hcode : Select.load h r v = .ok code)
    (hv : Carries h s x v) : Yields F code s fun s' => s'.regs = update s.regs r x := by
  obtain ⟨s', hrun, hl⟩ := runs_load hf hr hcode hv
  refine ⟨s', hrun, hl.toWorks, ?_⟩
  funext q
  by_cases hq : q = r
  · subst hq
    simp [hl.value]
  · simp [hq, hl.others q hq]

theorem yields_first (hf : h.Framed F s) (hcode : Select.load h .rax v = .ok code)
    (hv : Carries h s x v) : Yields F code s fun s' => s'.regs .rax = x :=
  (yields_load hf (by decide) hcode hv).mono fun _ hs => by simp [hs]

theorem yields_second (hf : h.Framed F s) (hcode : Select.load h .rcx w = .ok code)
    (hw : Carries h s y w) :
    Yields F code s fun s' => s'.regs .rax = s.regs .rax ∧ s'.regs .rcx = y :=
  (yields_load hf (by decide) hcode hw).mono fun _ hs => by simp [hs]

theorem yields_operands (hf : h.Framed F s) {first second : Code}
    (hfirst : Select.load h .rax v = .ok first) (hsecond : Select.load h .rcx w = .ok second)
    (hv : Carries h s x v) (hw : Carries h s y w) :
    Yields F (first ++ second) s fun s' => s'.regs .rax = x ∧ s'.regs .rcx = y := by
  refine (yields_first hf hfirst hv).seq fun hw₁ hs₁ => ?_
  exact (yields_second (hf.works hw₁) hsecond (hw.works hf hw₁)).mono fun _ hs₂ =>
    ⟨hs₂.1.trans hs₁, hs₂.2⟩

theorem Yields.mask (hc : Yields F code s fun s' => s'.regs .rax = x) (ht : t.IsScalar) :
    Yields F (code ++ mask t .rax) s fun s' => s'.regs .rax = x &&& t.mask :=
  hc.seq fun _ hs => (yields_mask F _ ht (by decide)).mono fun _ hs' => by simp [hs', hs]

@[simp] theorem low_qword (s : State) (r : Reg) : s.low .qword r = (s.regs r).toBitVec :=
  setWidth_eq _

theorem setWidth_or_shifted {k : Nat} (hk : k ≤ 64) (a : BitVec 64) (z : BitVec k) :
    ((a >>> k <<< k) ||| z.setWidth 64).setWidth k = z := by
  apply eq_of_getLsbD_eq
  intro i hi
  have h64 : i < 64 := by omega
  simp [hi, h64]

theorem merge_low (size : Size) (old : UInt64) (z : BitVec size.bits) :
    (size.merge old z).toBitVec.setWidth size.bits = z := by
  cases size with
  | byte | word => exact setWidth_or_shifted (by decide) _ z
  | dword => exact setWidth_setWidth_of_le z (by decide)
  | qword => exact setWidth_eq z

theorem runs_not (hf : h.Framed F s) (hh : h.Houses i) (ht : i.ty.IsScalar)
    (hcode : not h i v = .ok code) (hv : Carries h s x v) :
    ∃ s', Runs code s [] s' ∧ Settles F [] (h.get i.res) (~~~x &&& i.ty.mask) s s' := by
  obtain ⟨first, back, hfirst, hback, ⟨⟩⟩ := bind₂_eq_ok.mp hcode
  have hnot : Yields F (first ++ [.unary .not .qword (.reg .rax)]) s fun s' =>
      s'.regs .rax = ~~~x := by
    refine (yields_first hf hfirst hv).seq fun {s₁} _ hs₁ => ?_
    have hexec : (Machine.Instr.unary .not .qword (.reg .rax)).exec s₁ =
        .ok { s₁.setReg .rax ⟨~~~s₁.low .qword .rax⟩ with flags := s₁.flags } := rfl
    refine yields_setReg (by decide) hexec ?_
    rw [low_qword, hs₁]
    simp [setReg]
  exact (hnot.mask ht).settles hf hh ht hback (i.ty.fits_and_mask _)

theorem runs_cvt {op : CvtOp} (hf : h.Framed F s) (hh : h.Houses i) (ht : i.ty.IsScalar)
    (hvt : v.ty.IsScalar) (hcode : cvt h i op v = .ok code) (hv : Carries h s x v)
    (hx : v.ty.Fits x) :
    ∃ s', Runs code s [] s' ∧
      Settles F [] (h.get i.res) (Eval.cvt op v.ty i.ty x &&& i.ty.mask) s s' := by
  obtain ⟨first, back, hfirst, hback, ⟨⟩⟩ := bind₂_eq_ok.mp hcode
  have hwide : Yields F (first ++ (if op = .sext then widen v.ty .rax else [])) s fun s' =>
      s'.regs .rax &&& i.ty.mask = Eval.cvt op v.ty i.ty x &&& i.ty.mask := by
    refine (yields_first hf hfirst hv).seq fun {s₁} _ hs₁ => ?_
    have hcut : x &&& v.ty.mask = x := hx
    split_ifs with hop
    · subst hop
      refine (yields_widen F s₁ hvt (by decide) (by rw [hs₁]; exact hx)).mono fun _ hs₂ => ?_
      rw [hs₂, update_self, hs₁, Eval.cvt, hcut, UInt64.and_assoc, UInt64.and_self]
    · refine yields_nil ?_
      cases op with
      | sext => exact absurd rfl hop
      | trunc | zext => rw [hs₁, Eval.cvt, hcut, UInt64.and_assoc, UInt64.and_self]
  have hmask : Yields F (first ++ (if op = .sext then widen v.ty .rax else []) ++
      mask i.ty .rax) s fun s' =>
        s'.regs .rax = Eval.cvt op v.ty i.ty x &&& i.ty.mask :=
    hwide.seq fun _ hs => (yields_mask F _ ht (by decide)).mono fun _ hs' => by simp [hs', hs]
  exact hmask.settles hf hh ht hback (i.ty.fits_and_mask _)

section Arithmetic

theorem yields_aluCode (hf : h.Framed F s) {op : AluOp} (hop : op ≠ .cmp)
    (hcode : aluCode h op w = .ok code) (hw : Carries h s y w) :
    Yields F code s fun s' =>
      s'.regs .rax = ⟨op.result (s.regs .rax).toBitVec y.toBitVec⟩ := by
  have hreg {code : Code} (hload : Select.load h .rcx w = .ok code) :
      Yields F (code ++ [.alu op .qword .rax (.reg .rcx)]) s fun s' =>
        s'.regs .rax = ⟨op.result (s.regs .rax).toBitVec y.toBitVec⟩ := by
    refine (yields_second hf hload hw).seq fun {s₁} _ hs₁ => ?_
    have hexec : (Machine.Instr.alu op .qword .rax (.reg .rcx)).exec s₁ = .ok
        { s₁.setReg .rax ⟨op.result (s₁.low .qword .rax) (s₁.low .qword .rcx)⟩ with
          flags := some (op.flags (s₁.low .qword .rax) (s₁.low .qword .rcx)) } := by
      simp only [Machine.Instr.exec, if_neg hop]
      rfl
    refine yields_setReg (by decide) hexec ?_
    rw [low_qword, low_qword, hs₁.1, hs₁.2]
    simp [setReg]
  cases w with
  | var ty id =>
    obtain ⟨second, hsecond, ⟨⟩⟩ := bind_eq_ok.mp hcode
    exact hreg hsecond
  | const ty z =>
    obtain rfl : z = y := hw
    simp only [aluCode] at hcode
    split_ifs at hcode with hfits
    · cases hcode
      have hy : z.toUInt32.toInt32.toBitVec.signExtend 64 = z.toBitVec :=
        congrArg UInt64.toBitVec (Machine.Instr.fitsImm32_iff.mp hfits)
      have hexec : (Machine.Instr.aluImm op .qword (.reg .rax) z.toUInt32.toInt32).exec s = .ok
          { s.setReg .rax ⟨op.result (s.low .qword .rax)
              (z.toUInt32.toInt32.toBitVec.signExtend 64)⟩ with
            flags := some (op.flags (s.low .qword .rax)
              (z.toUInt32.toInt32.toBitVec.signExtend 64)) } := by
        simp only [Machine.Instr.exec, if_neg hop]
        rfl
      refine yields_setReg (by decide) hexec ?_
      rw [low_qword, hy]
      simp [setReg]
    · obtain ⟨second, hsecond, ⟨⟩⟩ := bind_eq_ok.mp hcode
      exact hreg hsecond

theorem yields_imul (hf : h.Framed F s) (hcode : Select.load h .rcx w = .ok code)
    (hw : Carries h s y w) :
    Yields F (code ++ [.imul .qword .rax (.reg .rcx)]) s fun s' =>
      s'.regs .rax = s.regs .rax * y := by
  refine (yields_second hf hcode hw).seq fun {s₁} _ hs₁ => ?_
  have hexec : (Machine.Instr.imul .qword .rax (.reg .rcx)).exec s₁ = .ok
      { s₁.setReg .rax ⟨s₁.low .qword .rax * s₁.low .qword .rcx⟩ with flags := none } := rfl
  refine yields_setReg (by decide) hexec ?_
  rw [low_qword, low_qword, hs₁.1, hs₁.2]
  simp only [setReg, update_self]
  rfl

/-- Operations bit by bit have no bits that no operand has. -/
theorem fits_bitwise (hle : t.bits ≤ 64) (hx : t.Fits x) (hy : t.Fits y) :
    t.Fits (x &&& y) ∧ t.Fits (x ||| y) ∧ t.Fits (x ^^^ y) := by
  simp only [Ty.fits_iff_lt hle] at *
  refine ⟨?_, ?_, ?_⟩
  · rw [UInt64.toNat_and]
    exact Nat.and_lt_two_pow _ hy
  · rw [UInt64.toNat_or]
    exact Nat.or_lt_two_pow hx hy
  · rw [UInt64.toNat_xor]
    exact Nat.xor_lt_two_pow hx hy

/-- What an operation leaves in `rax` before its mask. -/
def rawResult (x y : UInt64) : BinOp → UInt64
  | .add => x + y
  | .sub => x - y
  | .mul => x * y
  | .and => x &&& y
  | .or => x ||| y
  | .xor => x ^^^ y
  | _ => 0

theorem rawResult_and_mask (hx : t.Fits x) (hy : t.Fits y) (hshift : op.isShift = false)
    (hdiv : op.isDivision = false) : rawResult x y op &&& t.mask = Eval.binop op t x y := by
  unfold Ty.Fits at hx hy
  cases op with
  | sll | srl | sra => cases hshift
  | udiv | sdiv | urem | srem => cases hdiv
  | _ => simp only [rawResult, Eval.binop, hx, hy, Eval.binopWide]

/-- The mask, where one is needed, and the way into the home. -/
theorem Yields.settles_raw {front back : Code}
    (hraw : Yields F front s fun s' => s'.regs .rax = rawResult x y op) (hf : h.Framed F s)
    (hh : h.Houses i) (ht : i.ty.IsScalar) (hshift : op.isShift = false)
    (hdiv : op.isDivision = false) (hback : store h i .rax = .ok back) (hx : i.ty.Fits x)
    (hy : i.ty.Fits y) :
    ∃ s', Runs (front ++ (if needsMask op then Select.mask i.ty .rax else []) ++ back) s [] s' ∧
      Settles F [] (h.get i.res) (Eval.binop op i.ty x y) s s' := by
  have hcut := rawResult_and_mask hx hy hshift hdiv
  refine Yields.settles ?_ hf hh ht hback (Eval.fits_binop op i.ty x y)
  split_ifs with hmask
  · rw [← hcut]
    exact hraw.mask ht
  · -- without a mask the result is that of an operation bit by bit
    have hfits : i.ty.Fits (rawResult x y op) := by
      obtain ⟨hand, hor, hxor⟩ := fits_bitwise ht.bits_le hx hy
      cases op with
      | and => exact hand
      | or => exact hor
      | xor => exact hxor
      | add | sub | mul => exact absurd rfl hmask
      | sll | srl | sra => cases hshift
      | udiv | sdiv | urem | srem => cases hdiv
    rw [← hcut, hfits, List.append_nil]
    exact hraw

/-- The operations that are neither shifts nor divisions. -/
theorem runs_arithmetic (hf : h.Framed F s) (hh : h.Houses i) (ht : i.ty.IsScalar)
    (hshift : op.isShift = false) (hdiv : op.isDivision = false)
    (hcode : arithmetic h i op v w = .ok code) (hv : Carries h s x v) (hw : Carries h s y w)
    (hx : i.ty.Fits x) (hy : i.ty.Fits y) :
    ∃ s', Runs code s [] s' ∧ Settles F [] (h.get i.res) (Eval.binop op i.ty x y) s s' := by
  obtain ⟨first, hfirst, hcode⟩ := bind_eq_ok.mp hcode
  cases halu : Select.aluOp? op with
  | some alu =>
    simp only [halu] at hcode
    obtain ⟨second, back, hsecond, hback, ⟨⟩⟩ := bind₂_eq_ok.mp hcode
    refine Yields.settles_raw ?_ hf hh ht hshift hdiv hback hx hy
    refine (yields_first hf hfirst hv).seq fun hw₁ hs₁ => ?_
    have hne : alu ≠ .cmp := by
      rintro rfl
      cases op <;> cases halu
    refine (yields_aluCode (hf.works hw₁) hne hsecond (hw.works hf hw₁)).mono fun _ hs₂ => ?_
    rw [hs₁] at hs₂
    cases op <;> cases halu <;> exact hs₂
  | none =>
    simp only [halu] at hcode
    obtain ⟨load, second, hload, ⟨⟩, hcode⟩ := bind₂_eq_ok.mp hcode
    obtain ⟨back, hback, ⟨⟩⟩ := bind_eq_ok.mp hcode
    refine Yields.settles_raw ?_ hf hh ht hshift hdiv hback hx hy
    refine (yields_first hf hfirst hv).seq fun hw₁ hs₁ => ?_
    refine (yields_imul (hf.works hw₁) hload (hw.works hf hw₁)).mono fun _ hs₂ => ?_
    rw [hs₁] at hs₂
    cases op with
    | mul => exact hs₂
    | add | sub | and | or | xor => cases halu
    | sll | srl | sra => cases hshift
    | udiv | sdiv | urem | srem => cases hdiv

end Arithmetic

section Comparison

/-- The sign of a difference is wrong exactly when the difference overflows. -/
theorem sign_ne_overflow {n : Nat} (x y : BitVec n) :
    ((x - y).msb != ssubOverflow x y) = x.slt y := by
  cases n with
  | zero => rw [x.of_length_zero, y.of_length_zero]; rfl
  | succ n =>
    have hx := x.toInt_lt
    have hx' := x.le_toInt
    have hy := y.toInt_lt
    have hy' := y.le_toInt
    have hpow : ((2 ^ (n + 1) : Nat) : Int) = 2 * 2 ^ n := by push_cast; ring
    rw [msb_eq_toInt, toInt_sub, ssubOverflow, slt_eq_decide]
    rw [Nat.add_sub_cancel] at *
    generalize x.toInt = a at *
    generalize y.toInt = b at *
    generalize (2 ^ n : Int) = p at *
    have hbmod {d : Int} (h : -p ≤ d) (h' : d < p) : d.bmod (2 ^ (n + 1)) = d :=
      Int.bmod_eq_of_le (by rw [hpow]; omega) (by rw [hpow]; omega)
    rcases (show a - b < -p ∨ p ≤ a - b ∨ (-p ≤ a - b ∧ a - b < p) by omega) with h | h | ⟨h, h'⟩
    · have hd : (a - b).bmod (2 ^ (n + 1)) = a - b + 2 * p := by
        rw [← hbmod (d := a - b + 2 * p) (by omega) (by omega), ← hpow, Int.add_bmod_right]
      rw [hd]
      grind
    · have hd : (a - b).bmod (2 ^ (n + 1)) = a - b - 2 * p := by
        rw [← hbmod (d := a - b - 2 * p) (by omega) (by omega), ← hpow, Int.sub_bmod_right]
      rw [hd]
      grind
    · rw [hbmod h h']
      grind

/-- After a comparison each condition says what its operator says. -/
theorem holds_cond {n : Nat} (op : CmpOp) (x y : BitVec n) :
    (cond op).holds (.ofSub x y) = some (op.onBits x y) := by
  have hzero : (x - y == 0) = (x == y) := by
    rw [Bool.eq_iff_iff, beq_iff_eq, beq_iff_eq, sub_eq_iff_eq_add]
    simp
  have hslt := sign_ne_overflow x y
  have hule : (x.ult y || x == y) = x.ule y := by
    rw [Bool.eq_iff_iff, ult_eq_decide, ule_eq_decide, Bool.or_eq_true,
      decide_eq_true_eq, decide_eq_true_eq, beq_iff_eq, ← toNat_inj]
    omega
  have hsle : (x == y || x.slt y) = x.sle y := by
    rw [Bool.eq_iff_iff, slt_eq_decide, sle_eq_decide, Bool.or_eq_true,
      decide_eq_true_eq, decide_eq_true_eq, beq_iff_eq, ← toInt_inj]
    omega
  cases op with
  | eq => exact congrArg some hzero
  | ne => exact congrArg (fun b => some !b) hzero
  | ult => rfl
  | slt => exact congrArg some hslt
  | uge => exact congrArg some (ule_eq_not_ult y x).symm
  | sge =>
    show some (!((x - y).msb != ssubOverflow x y)) = some (y.sle x)
    rw [hslt, sle_eq_not_slt]
  | ule =>
    show some (x.ult y || x - y == 0) = some (x.ule y)
    rw [hzero, hule]
  | ugt =>
    show some (!(x.ult y || x - y == 0)) = some (y.ult x)
    rw [hzero, hule, ule_eq_not_ult, Bool.not_not]
  | sle =>
    show some (x - y == 0 || (x - y).msb != ssubOverflow x y) = some (x.sle y)
    rw [hzero, hslt, hsle]
  | sgt =>
    show some (!(x - y == 0 || (x - y).msb != ssubOverflow x y)) = some (y.slt x)
    rw [hzero, hslt, hsle, sle_eq_not_slt, Bool.not_not]

theorem holds_of_flags {n : Nat} (op : CmpOp) {x y : BitVec n}
    (hflags : s.flags = some (.ofSub x y)) :
    s.holds (cond op) = .ok (op.onBits x y) := by
  simp only [holds, hflags, Option.bind_some, holds_cond]

theorem onBits_signed (ht : t.IsScalar) {op : CmpOp} (hop : op.isSigned = true) (x y : UInt64) :
    op.onBits (Eval.signed t x).toBitVec (Eval.signed t y).toBitVec = Eval.cmp op t x y := by
  have hint (z : UInt64) : (Eval.signed t z).toBitVec.toInt = (t.low z).toInt :=
    Eval.signed_toInt ht z
  rw [Eval.cmp_eq_onBits ht]
  cases op with
  | sgt | slt => simp only [CmpOp.onBits, slt_eq_decide, hint]
  | sge | sle => simp only [CmpOp.onBits, sle_eq_decide, hint]
  | _ => cases hop

theorem onBits_unsigned {op : CmpOp} (hop : op.isSigned = false) (hx : t.Fits x)
    (hy : t.Fits y) : op.onBits x.toBitVec y.toBitVec = Eval.cmp op t x y := by
  unfold Ty.Fits at hx hy
  have heq : (x.toBitVec == y.toBitVec) = (x == y) := by
    rw [Bool.eq_iff_iff, beq_iff_eq, beq_iff_eq, UInt64.toBitVec_inj]
  cases op with
  | eq => simp only [Eval.cmp, hx, hy, CmpOp.onBits, heq]
  | ne => simp only [Eval.cmp, hx, hy, CmpOp.onBits, bne, heq]
  | ugt | uge | ult | ule =>
    simp only [Eval.cmp, hx, hy]
    rfl
  | _ => cases hop

/-- Both operands as the comparison of whole registers wants them. -/
theorem yields_widenBoth {op : CmpOp} (ht : t.IsScalar) (hx : t.Fits x) (hy : t.Fits y)
    (hrax : s.regs .rax = x) (hrcx : s.regs .rcx = y) :
    Yields F (if op.isSigned then widen t .rax ++ widen t .rcx else []) s fun s' =>
      op.onBits (s'.regs .rax).toBitVec (s'.regs .rcx).toBitVec = Eval.cmp op t x y := by
  split_ifs with hop
  · refine (yields_widen F s ht (by decide) (hrax ▸ hx)).seq fun {s₁} _ hs₁ => ?_
    have hrcx₁ : s₁.regs .rcx = y := by simp [hs₁, hrcx]
    refine (yields_widen F s₁ ht (by decide) (hrcx₁ ▸ hy)).mono fun {s₂} _ hs₂ => ?_
    rw [← onBits_signed ht hop]
    simp [hs₂, hs₁, hrax, hrcx]
  · rw [Bool.not_eq_true] at hop
    exact yields_nil (by rw [hrax, hrcx, onBits_unsigned hop hx hy])

theorem yields_outcome {c : Cond} {b : Bool} (hb : s.holds c = .ok b) :
    Yields F [.setcc c (.reg .rax), .movzx .byte .rax (.reg .rax)] s fun s' =>
      s'.regs .rax = Eval.ofBool b := by
  have hset : Yields F [.setcc c (.reg .rax)] s fun s' =>
      s'.low .byte .rax = (ofBool b).setWidth 8 := by
    have hexec : (Machine.Instr.setcc c (.reg .rax)).exec s = .ok
        { s.setReg .rax (Size.merge (s.regs .rax) .byte ((ofBool b).setWidth _)) with
          flags := s.flags } := by
      simp only [Machine.Instr.exec, hb]
      rfl
    refine yields_setReg (by decide) hexec ?_
    simp only [low, setReg, update_self]
    exact merge_low _ _ _
  refine hset.seq fun {s₁} _ hs₁ => ?_
  have hexec : (Machine.Instr.movzx .byte .rax (.reg .rax)).exec s₁ = .ok
      { s₁.setReg .rax ⟨(s₁.low .byte .rax).setWidth 64⟩ with flags := s₁.flags } := rfl
  refine yields_setReg (by decide) hexec ?_
  rw [hs₁]
  cases b <;> simp [setReg] <;> rfl

theorem runs_compare {op : CmpOp} (hf : h.Framed F s) (hh : h.Houses i) (ht : i.ty.IsScalar)
    (hvt : v.ty.IsScalar) (hcode : compare h i op v w = .ok code) (hv : Carries h s x v)
    (hw : Carries h s y w) (hx : v.ty.Fits x) (hy : v.ty.Fits y) :
    ∃ s', Runs code s [] s' ∧
      Settles F [] (h.get i.res) (Eval.ofBool (Eval.cmp op v.ty x y)) s s' := by
  obtain ⟨first, second, hfirst, hsecond, hcode⟩ := bind₂_eq_ok.mp hcode
  obtain ⟨back, hback, ⟨⟩⟩ := bind_eq_ok.mp hcode
  have hfits : i.ty.Fits (Eval.ofBool (Eval.cmp op v.ty x y)) := by
    rcases ht.cases with hty | hty | hty | hty | hty <;> rw [hty] <;>
      cases Eval.cmp op v.ty x y <;> decide
  refine Yields.settles ?_ hf hh ht hback hfits
  refine ((yields_operands hf hfirst hsecond hv hw).seq fun _ hs₁ =>
    yields_widenBoth hvt hx hy hs₁.1 hs₁.2).seq fun {s₂} _ hs₂ => ?_
  have hcmp : Yields F [.alu .cmp .qword .rax (.reg .rcx)] s₂ fun s' =>
      s'.holds (cond op) = .ok (Eval.cmp op v.ty x y) := by
    refine yields_instr rfl (Works.flags F s₂ _) ?_
    rw [← hs₂]
    refine holds_of_flags op ?_
    show some (Flags.ofSub (s₂.low .qword .rax) (s₂.low .qword .rcx)) = _
    rw [low_qword, low_qword]
    rfl
  exact hcmp.seq fun _ hs₃ => yields_outcome hs₃

end Comparison

section Tests

/-- The condition that code tests: a word of one bit. -/
theorem yields_test (hf : h.Framed F s) (hcode : Select.load h .rax v = .ok code)
    (hv : Carries h s x v) (hx : Ty.i1.Fits x) :
    Yields F (code ++ [.test .dword (.reg .rax) .rax]) s fun s' =>
      s'.holds .notEqual = .ok (x != 0) := by
  refine (yields_first hf hcode hv).seq fun {s₁} _ hs₁ => ?_
  refine yields_instr rfl (Works.flags F s₁ _) ?_
  show Except.ok (!(s₁.low .dword .rax &&& s₁.low .dword .rax == 0)) = _
  rw [low, hs₁]
  rcases eq_zero_or_one hx with rfl | rfl <;> decide

/-- An assertion that holds is passed; one that does not ends at the invalid instruction. -/
theorem runs_assert (hf : h.Framed F s) (hcode : assert h v = .ok code)
    (hv : Carries h s x v) (hx : Ty.i1.Fits x) :
    ∃ s', Runs code s (if x = 0 then [.ud2] else []) s' ∧ Works F s s' := by
  obtain ⟨load, hload, ⟨⟩⟩ := bind_eq_ok.mp hcode
  obtain ⟨s', hrun, hw, hs'⟩ := yields_test hf hload hv hx
  refine ⟨s', ?_, hw⟩
  split_ifs with h0
  · rw [h0] at hs'
    exact hrun.seq (.passed hs' .refl)
  · have hne : (x != 0) = true := bne_iff_ne.mpr h0
    rw [hne] at hs'
    have htaken : Runs (.jcc .notEqual (displacement (codeLength [.ud2])) :: ([.ud2] ++ [])) s' [] s' :=
      .taken hs' .refl
    exact hrun.seq htaken

end Tests

section Shift

theorem yields_shift {i : Machine.Instr} {op : ShiftOp} {size : Size} {n : Nat}
    (hexec : i.exec s = .ok (s.shift op size (.reg .rax) n)) :
    Yields F [i] s fun s' =>
      s'.regs .rax = size.merge (s.regs .rax) (op.result (s.low size .rax) n) := by
  have hshift : s.shift op size (.reg .rax) n =
      { s.setReg .rax (size.merge (s.regs .rax) (op.result (s.low size .rax) n)) with
        flags := if n = 0 then s.flags else none } := by
    simp only [State.shift, State.get, State.set, State.setLow]
    split <;> rfl
  rw [hshift] at hexec
  exact yields_setReg (by decide) hexec (by simp [State.setReg])

/-- The width that shifts of a type work on. -/
def shiftSize (t : Ty) : Size :=
  if t = .i32 then .dword else .qword

theorem wide_cases (ht : t.IsScalar) (hwide : ¬t.bits < 32) : t = .i32 ∨ t = .i64 := by
  rcases ht.cases with rfl | rfl | rfl | h
  rotate_left 3
  · exact h
  all_goals exact absurd (by decide) hwide

/-- The count of a shift, as the processor takes it from a word that has the right low bits. -/
theorem shiftCount_eq (ht : t.IsScalar) {n : Nat}
    (hn : n % shiftModulus t.bits = y.toNat % shiftModulus t.bits)
    (hnarrow : t.bits < 32 → n < 32) :
    shiftCount (shiftSize t) n = y.toNat % shiftModulus t.bits := by
  by_cases hlt : t.bits < 32
  · have hsize : shiftSize t = .qword := if_neg (by rintro rfl; exact absurd hlt (by decide))
    have hmod : shiftModulus t.bits = 32 := if_neg (by omega)
    have := hnarrow hlt
    rw [shiftCount, hsize, if_pos rfl]
    rw [hmod] at hn ⊢
    omega
  · rcases wide_cases ht hlt with rfl | rfl <;> exact hn

theorem toNat_low_byte (s : State) (r : Reg) :
    (s.low .byte r).toNat = (s.regs r).toNat % 256 :=
  toNat_setWidth _ _

/-- A count in `rcx` is cut for narrow types, so that a shift of the whole register takes it as it
is. -/
theorem yields_cutCount (F : Set UInt64) (s : State) (t : Ty) :
    Yields F (if t.bits < 32 then
        [.aluImm .and .dword (.reg .rcx) t.shiftMask.toUInt32.toInt32] else []) s fun s' =>
      s'.regs .rax = s.regs .rax ∧
      (s'.low .byte .rcx).toNat % shiftModulus t.bits =
        (s.regs .rcx).toNat % shiftModulus t.bits ∧
      (t.bits < 32 → (s'.low .byte .rcx).toNat < 32) := by
  split_ifs with hlt
  · have hmask : t.shiftMask = 31 := if_neg (by omega)
    have hmod : shiftModulus t.bits = 32 := if_neg (by omega)
    rw [hmask, hmod]
    let cut : UInt64 := ⟨((s.regs .rcx).toBitVec.setWidth 32 &&& 31).setWidth 64⟩
    have hcut : cut.toNat = (s.regs .rcx).toNat % 32 := by
      have hand : ((s.regs .rcx).toBitVec.setWidth 32 &&& 31).toNat =
          (s.regs .rcx).toNat % 2 ^ 32 % 2 ^ 5 := by
        rw [toNat_and, toNat_setWidth, ← Nat.and_two_pow_sub_one_eq_mod _ 5]
        rfl
      show (setWidth 64 _).toNat = _
      rw [toNat_setWidth, hand]
      omega
    have hexec : (Machine.Instr.aluImm .and .dword (.reg .rcx) 31).exec s = .ok
        { s.setReg .rcx cut with
          flags := some (.ofWord ((s.regs .rcx).toBitVec.setWidth 32 &&& 31)) } := rfl
    refine yields_setReg (by decide) hexec ⟨by simp [setReg], ?_⟩
    rw [toNat_low_byte]
    show (update s.regs .rcx cut .rcx).toNat % 256 % 32 = _ ∧
      (_ → (update s.regs .rcx cut .rcx).toNat % 256 < 32)
    rw [update_self, hcut]
    omega
  · refine yields_nil ⟨rfl, ?_, fun h => absurd h hlt⟩
    rw [toNat_low_byte]
    unfold shiftModulus
    split_ifs <;> omega

theorem yields_shiftConst (F : Set UInt64) (s : State) (ht : t.IsScalar) (op : ShiftOp)
    (y : UInt64) :
    Yields F [.shiftImm op (shiftSize t) (.reg .rax) (y &&& t.shiftMask).toUInt8] s fun s' =>
      s'.regs .rax = (shiftSize t).merge (s.regs .rax)
        (op.result (s.low (shiftSize t) .rax) (y.toNat % shiftModulus t.bits)) := by
  have hmask := Eval.toNat_shiftCount (t := t) y
  have hlt := Nat.mod_lt y.toNat (Eval.shiftModulus_pos t.bits)
  have hbyte : (y &&& t.shiftMask).toUInt8.toNat = y.toNat % shiftModulus t.bits := by
    have hle := Eval.shiftModulus_le t.bits
    rw [UInt64.toNat_toUInt8, hmask, Nat.mod_eq_of_lt (by omega)]
  have hcount : shiftCount (shiftSize t) (y &&& t.shiftMask).toUInt8.toNat =
      y.toNat % shiftModulus t.bits := by
    refine shiftCount_eq ht (by rw [hbyte, Nat.mod_mod]) fun hnarrow => ?_
    rw [hbyte]
    rwa [show shiftModulus t.bits = 32 from if_neg (by omega)] at hlt ⊢
  rw [← hcount]
  exact yields_shift rfl

theorem yields_shiftCount (F : Set UInt64) (ht : t.IsScalar) (op : ShiftOp)
    (hrcx : s.regs .rcx = y) :
    Yields F ((if t.bits < 32 then
        [.aluImm .and .dword (.reg .rcx) t.shiftMask.toUInt32.toInt32] else []) ++
        [.shiftCl op (shiftSize t) (.reg .rax)]) s fun s' =>
      s'.regs .rax = (shiftSize t).merge (s.regs .rax)
        (op.result (s.low (shiftSize t) .rax) (y.toNat % shiftModulus t.bits)) := by
  refine (yields_cutCount F s t).seq fun {s₁} _ ⟨hrax, hcount, hnarrow⟩ => ?_
  have hlow : s.low (shiftSize t) .rax = s₁.low (shiftSize t) .rax := by
    simp only [low, hrax]
  rw [← shiftCount_eq ht (hrcx ▸ hcount) hnarrow, hlow, ← hrax]
  exact yields_shift rfl

/-- An operand that an arithmetic shift of the whole register can shift. -/
def shiftOperand (t : Ty) (op : BinOp) (x : UInt64) : UInt64 :=
  if t.bits < 32 ∧ op = .sra then (Eval.signed t x).toUInt64 else x

theorem low_shl (hle : t.bits ≤ 64) (x : UInt64) (c : Nat) :
    t.low ⟨x.toBitVec <<< c⟩ = t.low x <<< c := by
  apply eq_of_getLsbD_eq
  intro j hj
  have h64 : j < 64 := by omega
  have hsub : j - c < t.bits := by omega
  show (setWidth t.bits (x.toBitVec <<< c)).getLsbD j = _
  simp only [Ty.low, getLsbD_setWidth, getLsbD_shiftLeft, hj, h64, hsub, decide_true,
    Bool.true_and]

theorem low_shr (hle : t.bits ≤ 64) (hx : t.Fits x) (c : Nat) :
    t.low ⟨x.toBitVec >>> c⟩ = t.low x >>> c := by
  have hlt := (Ty.fits_iff_lt hle x).mp hx
  apply eq_of_toNat_eq
  show (setWidth t.bits (x.toBitVec >>> c)).toNat = _
  rw [toNat_setWidth, toNat_ushiftRight, toNat_ushiftRight, Ty.toNat_low,
    UInt64.toNat_toBitVec, Nat.mod_eq_of_lt hlt, Nat.shiftRight_eq_div_pow]
  exact Nat.mod_eq_of_lt ((Nat.div_le_self _ _).trans_lt hlt)

theorem low_sar (ht : t.IsScalar) (x : UInt64) (c : Nat) :
    t.low ⟨(Eval.signed t x).toBitVec.sshiftRight c⟩ = (t.low x).sshiftRight c := by
  let z : Int64 := ⟨⟨(Eval.signed t x).toBitVec.sshiftRight c⟩⟩
  have hz : z.toInt = (t.low x).toInt >>> c := by
    show ((Eval.signed t x).toBitVec.sshiftRight c).toInt = _
    rw [toInt_sshiftRight]
    exact congrArg (fun a : Int => a >>> c) (Eval.signed_toInt ht x)
  apply eq_of_toInt_eq
  show (z.toBitVec.setWidth t.bits).toInt = _
  rw [Eval.toInt_setWidth_signed ht.bits_le, hz, ← toInt_sshiftRight]
  exact toInt_bmod_cancel _

theorem low_merge_shift (ht : t.IsScalar) (hop : op.isShift = true) (hx : t.Fits x) (hy : t.Fits y)
    (hs : s.regs .rax = shiftOperand t op x) :
    t.low ((shiftSize t).merge (s.regs .rax) ((shiftOp op).result (s.low (shiftSize t) .rax)
      (y.toNat % shiftModulus t.bits))) = op.onBits (t.low x) (t.low y) := by
  have hle := ht.bits_le
  have hcount : (t.low y).toNat = y.toNat := by
    rw [Ty.toNat_low, Nat.mod_eq_of_lt ((Ty.fits_iff_lt hle y).mp hy)]
  have hplain (hne : op ≠ .sra) : shiftOperand t op x = x := if_neg fun h => hne h.2
  by_cases hty : t = .i32
  · subst hty
    have hx' : shiftOperand .i32 op x = x := if_neg fun h => absurd h.1 (by decide)
    have hcut (z : BitVec Ty.i32.bits) : Ty.i32.low ⟨z.setWidth 64⟩ = z :=
      setWidth_setWidth_of_le z (by decide)
    show Ty.i32.low ⟨((shiftOp op).result (Ty.i32.low (s.regs .rax)) _).setWidth 64⟩ = _
    rw [hs, hx', hcut, ← hcount]
    cases op with
    | sll | srl | sra => rfl
    | _ => cases hop
  · have hsize : shiftSize t = .qword := if_neg hty
    rw [hsize]
    show t.low ⟨(shiftOp op).result (s.low .qword .rax) _⟩ = _
    rw [low_qword, hs, ← hcount]
    cases op with
    | sll =>
      rw [hplain (by decide)]
      exact low_shl hle x _
    | srl =>
      rw [hplain (by decide)]
      exact low_shr hle hx _
    | sra =>
      have hsigned : shiftOperand t .sra x = (Eval.signed t x).toUInt64 := by
        unfold shiftOperand
        split_ifs with hnarrow
        · rfl
        · rcases wide_cases ht fun h => hnarrow ⟨h, rfl⟩ with rfl | rfl
          · exact absurd rfl hty
          · rfl
      rw [hsigned]
      exact low_sar ht x _
    | _ => cases hop

/-- Where no mask follows, the shift leaves no bits above the width. -/
theorem fits_merge_shift (ht : t.IsScalar) (hwide : ¬t.bits < 32) (old : UInt64)
    (z : BitVec (shiftSize t).bits) : t.Fits ((shiftSize t).merge old z) := by
  rcases wide_cases ht hwide with rfl | rfl
  · refine (Ty.fits_iff_lt (by decide) _).mpr ?_
    show (setWidth 64 z).toNat < 2 ^ 32
    rw [toNat_setWidth]
    exact (Nat.mod_le _ _).trans_lt z.isLt
  · exact (Ty.fits_iff_lt (by decide) _).mpr (UInt64.toNat_lt _)

/-- A shift of what the sign has been put in, by a count that reaches the width as the evaluator has
it. -/
theorem Yields.settles_shift {front body back : Code}
    (hsign : Yields F front s fun s' => s'.regs .rax = shiftOperand i.ty op x)
    (hbody : ∀ {s₁}, Works F s s₁ → Yields F body s₁ fun s' =>
      s'.regs .rax = (shiftSize i.ty).merge (s₁.regs .rax) ((shiftOp op).result
        (s₁.low (shiftSize i.ty) .rax) (y.toNat % shiftModulus i.ty.bits)))
    (hf : h.Framed F s) (hh : h.Houses i) (ht : i.ty.IsScalar) (hop : op.isShift = true)
    (hback : store h i .rax = .ok back) (hx : i.ty.Fits x) (hy : i.ty.Fits y) :
    ∃ s', Runs (front ++ body ++ (if i.ty.bits < 32 then Select.mask i.ty .rax else []) ++ back) s
        [] s' ∧ Settles F [] (h.get i.res) (Eval.binop op i.ty x y) s s' := by
  have hlow : Yields F (front ++ body) s fun s' =>
      i.ty.low (s'.regs .rax) = i.ty.low (Eval.binop op i.ty x y) ∧
        (¬i.ty.bits < 32 → i.ty.Fits (s'.regs .rax)) := by
    refine hsign.seq fun hw₁ hs₁ => (hbody hw₁).mono fun _ hs₂ => ?_
    rw [hs₂, Eval.low_binop ht]
    exact ⟨low_merge_shift ht hop hx hy hs₁, fun hwide => fits_merge_shift ht hwide _ _⟩
  have hle := ht.bits_le
  refine Yields.settles ?_ hf hh ht hback (Eval.fits_binop op i.ty x y)
  refine hlow.seq fun {s₁} _ ⟨hs₁, hfits⟩ => ?_
  split_ifs with hnarrow
  · refine (yields_mask F s₁ ht (by decide)).mono fun _ hs₂ => ?_
    rw [hs₂, update_self]
    refine (i.ty.fits_and_mask _).eq_of_low_eq hle (Eval.fits_binop op i.ty x y) ?_
    rw [Ty.low_and_mask hle, hs₁]
  · exact yields_nil ((hfits hnarrow).eq_of_low_eq hle (Eval.fits_binop op i.ty x y) hs₁)

theorem runs_shift (hf : h.Framed F s) (hh : h.Houses i) (ht : i.ty.IsScalar)
    (hop : op.isShift = true) (hcode : shift h i op v w = .ok code) (hv : Carries h s x v)
    (hw : Carries h s y w) (hx : i.ty.Fits x) (hy : i.ty.Fits y) :
    ∃ s', Runs code s [] s' ∧ Settles F [] (h.get i.res) (Eval.binop op i.ty x y) s s' := by
  obtain ⟨first, hfirst, hcode⟩ := bind_eq_ok.mp hcode
  have hsign : Yields F (first ++
      (if i.ty.bits < 32 ∧ op = .sra then widen i.ty .rax else [])) s fun s' =>
        s'.regs .rax = shiftOperand i.ty op x := by
    refine (yields_first hf hfirst hv).seq fun {s₁} _ hs₁ => ?_
    unfold shiftOperand
    split_ifs
    · exact (yields_widen F s₁ ht (by decide) (hs₁ ▸ hx)).mono fun _ hs₂ => by simp [hs₂, hs₁]
    · exact yields_nil hs₁
  cases w with
  | const u n =>
    obtain ⟨body, back, ⟨⟩, hback, ⟨⟩⟩ := bind₂_eq_ok.mp hcode
    obtain rfl : n = y := hw
    exact hsign.settles_shift (fun _ => yields_shiftConst F _ ht _ n) hf hh ht hop hback hx hy
  | var u id =>
    obtain ⟨count, body, hcount, ⟨⟩, hcode⟩ := bind₂_eq_ok.mp hcode
    obtain ⟨back, hback, ⟨⟩⟩ := bind_eq_ok.mp hcode
    refine hsign.settles_shift (fun {s₁} hw₁ => ?_) hf hh ht hop hback hx hy
    rw [List.append_assoc]
    refine (yields_second (hf.works hw₁) hcount (hw.works hf hw₁)).seq fun {s₂} _ hs₂ => ?_
    rw [← hs₂.1, low, ← hs₂.1]
    exact yields_shiftCount F ht _ hs₂.2

end Shift

end Dynarec.Native
