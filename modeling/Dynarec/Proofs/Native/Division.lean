import Dynarec.Proofs.Native.Scalar

/-!
# Division

The division of the processor traps on a zero divisor and on a quotient that does not fit. The code
around it takes the first case out, and for signed operands the divisor -1, and then the quotient fits.
So no division traps, and in every case the low bits of `rax` become those of the operation.
-/
namespace Dynarec.Native

open Machine Select BitVec State

section Words

variable {n : Nat}

theorem divideUnsigned_eq (x : BitVec n) {y : BitVec n} (hy : y ≠ 0) :
    divideUnsigned 0 x y = some (x / y, x % y) := by
  have hpos : y.toNat ≠ 0 := fun h => hy (eq_of_toNat_eq h)
  have hq : x.toNat / y.toNat < 2 ^ n := (Nat.div_le_self _ _).trans_lt x.isLt
  have hr : x.toNat % y.toNat < 2 ^ n := (Nat.mod_le _ _).trans_lt x.isLt
  have hx : (0 : BitVec n).toNat * 2 ^ n + x.toNat = x.toNat := by simp
  simp only [divideUnsigned, hx]
  rw [if_neg (by omega), Option.some.injEq, Prod.mk.injEq]
  constructor
  · apply eq_of_toNat_eq
    rw [toNat_ofNat, toNat_udiv, Nat.mod_eq_of_lt hq]
  · apply eq_of_toNat_eq
    rw [toNat_ofNat, toNat_umod, Nat.mod_eq_of_lt hr]

/-- A word below a word of its signs is the signed number. -/
theorem toInt_signs (x : BitVec n) :
    (x.sshiftRight (n - 1)).toInt * 2 ^ n + x.toNat = x.toInt := by
  have hlt := x.toInt_lt
  have hle := x.le_toInt
  have hcond := x.toInt_eq_msb_cond
  have hmsb := @msb_eq_toInt n x
  rw [toInt_sshiftRight, Int.shiftRight_eq_div_pow, Nat.cast_pow, Nat.cast_ofNat]
  rw [Nat.cast_pow, Nat.cast_ofNat] at hcond
  by_cases hneg : x.toInt < 0
  · rw [Int.ediv_eq_neg_one_of_neg_of_le hneg (by omega)]
    rw [hmsb, decide_eq_true hneg, if_pos rfl] at hcond
    omega
  · rw [Int.ediv_eq_zero_of_lt (by omega) hlt]
    rw [hmsb, decide_eq_false hneg, if_neg Bool.false_ne_true] at hcond
    omega

/-- The quotient fits unless the divisor is -1. -/
theorem divideSigned_eq (x : BitVec n) {y : BitVec n} (hy : y ≠ 0)
    (hminus : y ≠ allOnes n) :
    divideSigned (x.sshiftRight (n - 1)) x y = some (x.sdiv y, x.srem y) := by
  have hzero : y.toInt ≠ 0 := fun h => hy (eq_of_toInt_eq (by rw [h]; simp))
  have hq : x.toInt.tdiv y.toInt = (x.sdiv y).toInt :=
    (x.toInt_sdiv_of_ne_or_ne y (Or.inr (by rwa [neg_one_eq_allOnes]))).symm
  have hlt := @two_mul_toInt_lt n (x.sdiv y)
  have hle := @le_two_mul_toInt n (x.sdiv y)
  simp only [divideSigned, toInt_signs, hq]
  rw [if_neg (by omega), ofInt_toInt, ← toInt_srem, ofInt_toInt]

theorem sdiv_allOnes (hn : 0 < n) (x : BitVec n) : x.sdiv (allOnes n) = -x := by
  apply eq_of_toInt_eq
  rw [toInt_sdiv, toInt_neg, toInt_allOnes, if_pos hn, Int.tdiv_neg,
    Int.tdiv_one]

theorem srem_allOnes (hn : 0 < n) (x : BitVec n) : x.srem (allOnes n) = 0 := by
  apply eq_of_toInt_eq
  rw [toInt_srem, toInt_allOnes, if_pos hn, Int.tmod_neg, Int.tmod_one]
  simp

end Words

variable {F : Set UInt64} {s s' : State} {size : Size} {op : BinOp} {P : State → Prop}

/-- The widths that are divided. -/
def IsDivided (size : Size) : Prop :=
  size = .dword ∨ size = .qword

theorem IsDivided.bits_pos (hsize : IsDivided size) : 0 < size.bits := by
  rcases hsize with rfl | rfl <;> decide

theorem low_of_eq {r : Reg} (h : s'.regs r = s.regs r) : s'.low size r = s.low size r := by
  rw [low, low, h]

theorem yields_setLow {i : Machine.Instr} {r : Reg} {z : BitVec size.bits} {f : Option Flags}
    (hr : r ∈ scratch) (hi : i.exec s = .ok { s.setLow size r z with flags := f }) :
    Yields F [i] s fun s' => s'.low size r = z ∧ ∀ q, q ≠ r → s'.regs q = s.regs q := by
  refine yields_setReg hr hi ⟨?_, fun q hq => by simp [setReg, hq]⟩
  simp only [low, setReg, Function.update_self]
  exact merge_low _ _ _

section Jumps

variable {c : Cond} {skipped code : Code}

theorem Yields.taken (h : Yields F code s P) (hc : s.holds c = .ok true) :
    Yields F (skipIf c skipped ++ code) s P := by
  obtain ⟨s', hrun, hw, hs'⟩ := h
  exact ⟨s', .taken hc hrun, hw, hs'⟩

theorem Yields.passed {rel : Int32} (h : Yields F code s P) (hc : s.holds c = .ok false) :
    Yields F (.jcc c rel :: code) s P := by
  obtain ⟨s', hrun, hw, hs'⟩ := h
  exact ⟨s', .passed hc hrun, hw, hs'⟩

theorem yields_jumpOver (skipped : Code) (h : P s) :
    Yields F (jumpOver (codeLength skipped) :: skipped) s P := by
  have hrun : Runs (jumpOver (codeLength skipped) :: (skipped ++ [])) s [] s := .jmp .refl
  rw [List.append_nil] at hrun
  exact ⟨s, hrun, .refl F s, h⟩

end Jumps

section Divide

/-- The quotient and the remainder come into `rax` and `rdx`. -/
theorem yields_setQuotient {i : Machine.Instr} {q r : BitVec size.bits}
    (hi : i.exec s = s.setQuotient size (some (q, r))) :
    Yields F [i] s fun s' => s'.low size .rax = q ∧ s'.low size .rdx = r := by
  refine yields_instr hi ?_ ⟨?_, ?_⟩
  · exact ((Works.setReg F s (by decide) _).trans (.setReg F _ (by decide) _)).trans (.flags F _ _)
  · simp only [low, setLow, setReg]
    exact merge_low _ _ _
  · simp only [low, setLow, setReg]
    exact merge_low _ _ _

theorem yields_divideSigned (hsize : IsDivided size) (hzero : s.low size .rcx ≠ 0)
    (hminus : s.low size .rcx ≠ allOnes _) :
    Yields F [if size = .qword then .cqo else .cdq, .unary .idiv size (.reg .rcx)] s fun s' =>
      s'.low size .rax = (s.low size .rax).sdiv (s.low size .rcx) ∧
      s'.low size .rdx = (s.low size .rax).srem (s.low size .rcx) := by
  have hsigns : Yields F [if size = .qword then .cqo else .cdq] s fun s' =>
      s'.low size .rdx = (s.low size .rax).sshiftRight (size.bits - 1) ∧
      ∀ q, q ≠ .rdx → s'.regs q = s.regs q := by
    refine yields_setLow (f := s.flags) (by decide) ?_
    rcases hsize with rfl | rfl <;> rfl
  refine hsigns.seq fun {s₁} _ ⟨hrdx, hothers⟩ => yields_setQuotient ?_
  have hbyte : size ≠ .byte := by rcases hsize with rfl | rfl <;> decide
  have hrax : s₁.low size .rax = s.low size .rax := low_of_eq (hothers _ (by decide))
  have hrcx : s₁.low size .rcx = s.low size .rcx := low_of_eq (hothers _ (by decide))
  simp only [Machine.Instr.exec, if_neg hbyte, State.get]
  rw [hrdx, hrax, hrcx, divideSigned_eq _ hzero hminus]

theorem yields_clear {r : Reg} (hr : r ∈ scratch) :
    Yields F [.alu .xor .dword r (.reg r)] s fun s' => s'.regs = Function.update s.regs r 0 := by
  have hexec : (Machine.Instr.alu .xor .dword r (.reg r)).exec s = .ok
      { s.setReg r ⟨(s.low .dword r ^^^ s.low .dword r).setWidth 64⟩ with
        flags := some (AluOp.xor.flags (s.low .dword r) (s.low .dword r)) } := rfl
  refine yields_setReg hr hexec ?_
  rw [BitVec.xor_self]
  rfl

theorem yields_divideUnsigned (hsize : IsDivided size) (hzero : s.low size .rcx ≠ 0) :
    Yields F [.alu .xor .dword .rdx (.reg .rdx), .unary .div size (.reg .rcx)] s fun s' =>
      s'.low size .rax = s.low size .rax / s.low size .rcx ∧
      s'.low size .rdx = s.low size .rax % s.low size .rcx := by
  refine (yields_clear (by decide)).seq fun {s₁} _ hs₁ => yields_setQuotient ?_
  have hbyte : size ≠ .byte := by rcases hsize with rfl | rfl <;> decide
  have hrdx : s₁.low size .rdx = 0 := by simp [State.low, hs₁]
  have hrax : s₁.low size .rax = s.low size .rax := low_of_eq (by simp [hs₁])
  have hrcx : s₁.low size .rcx = s.low size .rcx := low_of_eq (by simp [hs₁])
  simp only [Machine.Instr.exec, if_neg hbyte, State.get]
  rw [hrdx, hrax, hrcx, divideUnsigned_eq _ hzero]

theorem yields_pick {q r : BitVec size.bits} (hq : s.low size .rax = q) (hr : s.low size .rdx = r) :
    Yields F (if isRemainder op then [.movTo size (.reg .rax) .rdx] else []) s fun s' =>
      s'.low size .rax = if isRemainder op then r else q := by
  split_ifs
  · refine (yields_setLow (f := s.flags) (by decide) rfl).mono fun _ hs₁ => ?_
    exact hs₁.1.trans hr
  · exact yields_nil hq

theorem yields_divideCode (hsize : IsDivided size) (hop : op.isDivision = true)
    (hzero : s.low size .rcx ≠ 0)
    (hminus : isSignedDivision op = true → s.low size .rcx ≠ allOnes _) :
    Yields F (divideCode op size) s fun s' =>
      s'.low size .rax = op.onBits (s.low size .rax) (s.low size .rcx) := by
  unfold divideCode
  by_cases hsigned : isSignedDivision op = true
  · rw [if_pos hsigned]
    refine (yields_divideSigned hsize hzero (hminus hsigned)).seq fun _ ⟨hq, hr⟩ => ?_
    refine (yields_pick hq hr).mono fun _ hs => hs.trans ?_
    cases op with
    | sdiv => exact (if_neg hzero).symm
    | srem => rfl
    | _ => cases hsigned
  · rw [if_neg hsigned]
    refine (yields_divideUnsigned hsize hzero).seq fun _ ⟨hq, hr⟩ => ?_
    refine (yields_pick hq hr).mono fun _ hs => hs.trans ?_
    cases op with
    | udiv => exact (if_neg hzero).symm
    | urem => rfl
    | sdiv | srem => exact absurd rfl hsigned
    | _ => cases hop

end Divide

section Guards

/-- The division by -1 negates, and its remainder is zero. -/
theorem yields_minusOne (hsize : IsDivided size) (hsigned : isSignedDivision op = true)
    (hminus : s.low size .rcx = allOnes _) :
    Yields F [if isRemainder op then .alu .xor .dword .rax (.reg .rax)
        else .unary .neg size (.reg .rax)] s fun s' =>
      s'.low size .rax = op.onBits (s.low size .rax) (s.low size .rcx) := by
  have hpos := hsize.bits_pos
  rw [hminus]
  cases op with
  | sdiv =>
    have hne : allOnes size.bits ≠ 0 := by
      intro h
      have := congrArg BitVec.toInt h
      rw [toInt_allOnes, if_pos hpos] at this
      simp at this
    have hneg : (Machine.Instr.unary .neg size (.reg .rax)).exec s = .ok
        { s.setLow size .rax (-s.low size .rax) with flags := some (.ofSub 0 (s.low size .rax)) } := rfl
    refine (yields_setLow (by decide) hneg).mono fun _ hs => hs.1.trans ?_
    simp only [BinOp.onBits, if_neg hne, sdiv_allOnes hpos]
  | srem =>
    refine (yields_clear (by decide)).mono fun _ hs => ?_
    rw [low, hs, Function.update_self, BinOp.onBits, srem_allOnes hpos]
    simp
  | _ => cases hsigned

theorem yields_nonzeroCode (hsize : IsDivided size) (hop : op.isDivision = true)
    (hzero : s.low size .rcx ≠ 0) :
    Yields F (nonzeroCode op size) s fun s' =>
      s'.low size .rax = op.onBits (s.low size .rax) (s.low size .rcx) := by
  unfold nonzeroCode
  by_cases hsigned : isSignedDivision op = true
  · simp only [if_pos hsigned]
    have hcmp : Yields F [.aluImm .cmp size (.reg .rcx) (-1)] s fun s' =>
        s'.regs = s.regs ∧
        s'.holds .notEqual = .ok (s.low size .rcx != allOnes _) := by
      refine yields_instr rfl (Works.flags F s _) ⟨rfl, ?_⟩
      have hones : (-1 : Int32).toBitVec.signExtend size.bits = allOnes _ := by
        rcases hsize with rfl | rfl <;> rfl
      refine holds_of_flags .ne ?_
      show some (Flags.ofSub (s.low size .rcx) ((-1 : Int32).toBitVec.signExtend size.bits)) = _
      rw [hones]
    refine hcmp.seq fun {s₁} _ ⟨hregs, hholds⟩ => ?_
    have hrax : s₁.low size .rax = s.low size .rax := low_of_eq (by rw [hregs])
    have hrcx : s₁.low size .rcx = s.low size .rcx := low_of_eq (by rw [hregs])
    rw [← hrax, ← hrcx]
    rw [← hrcx] at hholds hzero
    by_cases hminus : s₁.low size .rcx = allOnes _
    · rw [hminus, bne_self_eq_false] at hholds
      refine Yields.passed ?_ hholds
      exact (yields_minusOne hsize hsigned hminus).seq fun _ hs₂ => yields_jumpOver _ hs₂
    · rw [bne_iff_ne.mpr hminus] at hholds
      exact (yields_divideCode hsize hop hzero fun _ => hminus).taken hholds
  · rw [if_neg hsigned]
    exact yields_divideCode hsize hop hzero fun h => absurd h hsigned

theorem yields_answer (F : Set UInt64) (s : State) (x : UInt64) (rest : Code) :
    Yields F ([.loadImm .rax x, jumpOver (codeLength rest)] ++ rest) s fun s' =>
      s'.low size .rax = x.toBitVec.setWidth _ :=
  (yields_loadImm F s (by decide) x).seq fun _ hs₁ => yields_jumpOver rest (by
    rw [low, hs₁.1, Function.update_self])

theorem yields_zeroCode {t : Ty} (hsize : IsDivided size) (hop : op.isDivision = true)
    (hmask : t.mask.toBitVec.setWidth size.bits = allOnes _) (hzero : s.low size .rcx = 0)
    (rest : Code) :
    Yields F (zeroCode op t size (codeLength rest) ++ rest) s fun s' =>
      s'.low size .rax = op.onBits (s.low size .rax) (s.low size .rcx) := by
  rw [hzero]
  cases op with
  | udiv =>
    refine (yields_answer F s t.mask rest).mono fun _ hs => hs.trans ?_
    rw [hmask]
    rfl
  | sdiv =>
    have htest : Yields F [.test size (.reg .rax) .rax] s fun s' =>
        s'.flags = some (.ofWord (s.low size .rax)) := by
      refine yields_instr rfl (Works.flags F s _) ?_
      show some (Flags.ofWord (s.low size .rax &&& s.low size .rax)) = _
      rw [BitVec.and_self]
    refine htest.seq fun {s₁} _ hs₁ => ?_
    refine (yields_loadImm F s₁ (by decide) t.mask).seq fun {s₂} _ ⟨hregs, hflags⟩ => ?_
    have hholds : s₂.holds .notNegative = .ok (!(s.low size .rax).msb) := by
      rw [holds, hflags, hs₁]
      rfl
    have hone : (1 : UInt64).toBitVec.setWidth size.bits = 1 := by
      rcases hsize with rfl | rfl <;> rfl
    simp only [BinOp.onBits, if_true]
    cases hmsb : (s.low size .rax).msb with
    | true =>
      rw [hmsb] at hholds
      exact (yields_answer F s₂ 1 rest).passed hholds |>.mono fun _ hs => hs.trans hone
    | false =>
      rw [hmsb] at hholds
      -- both the answer for a negative dividend and the division are skipped
      have hskip : Yields F (skipIf .notNegative
          ([.loadImm .rax 1, jumpOver (codeLength rest)] ++ rest) ++ []) s₂ fun s' =>
            s'.low size .rax = allOnes _ := by
        refine (yields_nil ?_).taken hholds
        rw [low, hregs, Function.update_self, hmask]
      rw [List.append_nil, skipIf, codeLength_append] at hskip
      exact hskip
  | urem =>
    refine yields_jumpOver rest ?_
    simp [BinOp.onBits]
  | srem =>
    refine yields_jumpOver rest ?_
    exact srem_zero.symm
  | _ => cases hop

end Guards

variable {h : Homes} {i : Dynarec.Instr} {v w : Value} {code : Code} {x y : UInt64}

/-- The divided width of a type. -/
def divisionSize (t : Ty) : Size :=
  if t = .i32 then .dword else .qword

/-- The division with its guards. -/
theorem yields_guarded {t : Ty} (hsize : IsDivided size) (hop : op.isDivision = true)
    (hmask : t.mask.toBitVec.setWidth size.bits = allOnes _) :
    Yields F (.test size (.reg .rcx) .rcx :: (skipIf .notEqual
        (zeroCode op t size (codeLength (nonzeroCode op size))) ++
          nonzeroCode op size)) s fun s' =>
      s'.low size .rax = op.onBits (s.low size .rax) (s.low size .rcx) := by
  have htest : Yields F [.test size (.reg .rcx) .rcx] s fun s' =>
      s'.regs = s.regs ∧ s'.holds .notEqual = .ok (s.low size .rcx != 0) := by
    refine yields_instr rfl (Works.flags F s _) ⟨rfl, ?_⟩
    show Except.ok (!(s.low size .rcx &&& s.low size .rcx == 0)) = _
    rw [BitVec.and_self]
    rfl
  refine htest.seq fun {s₁} _ ⟨hregs, hholds⟩ => ?_
  have hrax : s₁.low size .rax = s.low size .rax := low_of_eq (by rw [hregs])
  have hrcx : s₁.low size .rcx = s.low size .rcx := low_of_eq (by rw [hregs])
  rw [← hrax, ← hrcx]
  rw [← hrcx] at hholds
  by_cases hzero : s₁.low size .rcx = 0
  · rw [hzero, bne_self_eq_false] at hholds
    exact (yields_zeroCode hsize hop hmask hzero _).passed hholds
  · rw [bne_iff_ne.mpr hzero] at hholds
    exact (yields_nonzeroCode hsize hop hzero).taken hholds

/-- Divisions of the two types that have one. -/
theorem runs_division (hf : h.Framed F s) (hh : h.Houses i) (hty : i.ty = .i32 ∨ i.ty = .i64)
    (hop : op.isDivision = true)
    (hcode : division h i op (divisionSize i.ty) v w = .ok code)
    (hv : Carries h s x v) (hw : Carries h s y w) :
    ∃ s', Runs code s [] s' ∧ Settles F [] (h.get i.res) (Eval.binop op i.ty x y) s s' := by
  have ht : i.ty.IsScalar := by rcases hty with h | h <;> rw [h] <;> decide
  have hsize : IsDivided (divisionSize i.ty) := by
    rcases hty with h | h <;> rw [h] <;> [exact Or.inl rfl; exact Or.inr rfl]
  have hmask : i.ty.mask.toBitVec.setWidth (divisionSize i.ty).bits = allOnes _ := by
    rcases hty with h | h <;> rw [h] <;> decide
  have hbits : (divisionSize i.ty).bits = i.ty.bits := by
    rcases hty with h | h <;> rw [h] <;> rfl
  obtain ⟨first, second, hfirst, hsecond, hcode⟩ := Except.bind₂_eq_ok.mp hcode
  obtain ⟨back, hback, ⟨⟩⟩ := Except.bind_eq_ok.mp hcode
  have hraw : Yields F (first ++ second ++ [.test (divisionSize i.ty) (.reg .rcx) .rcx] ++
      skipIf .notEqual (zeroCode op i.ty (divisionSize i.ty)
        (codeLength (nonzeroCode op (divisionSize i.ty)))) ++
      nonzeroCode op (divisionSize i.ty)) s fun s' =>
        i.ty.low (s'.regs .rax) = op.onBits (i.ty.low x) (i.ty.low y) := by
    rw [List.append_assoc, List.append_assoc]
    refine (yields_operands hf hfirst hsecond hv hw).seq fun {s₁} _ ⟨hrax, hrcx⟩ => ?_
    refine (yields_guarded hsize hop hmask).mono fun _ hs₂ => ?_
    rw [low, low, low, hrax, hrcx, hbits] at hs₂
    exact hs₂
  refine Yields.settles ?_ hf hh ht hback (Eval.fits_binop op i.ty x y)
  refine hraw.seq fun {s₁} _ hs₁ => (yields_mask F s₁ ht (by decide)).mono fun _ hs₂ => ?_
  rw [hs₂, Function.update_self]
  refine (i.ty.fits_and_mask _).eq_of_low_eq ht.bits_le (Eval.fits_binop op i.ty x y) ?_
  rw [Ty.low_and_mask ht.bits_le, hs₁, Eval.low_binop ht op x y]

end Dynarec.Native
