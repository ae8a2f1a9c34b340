import Dynarec.Proofs.Graph.Eval

/-!
# Arithmetic in two's complement

The evaluator on the numbers that words stand for. The low bits of a word are read without a sign, or
with one, and then the upper half of the numbers stands for the negative ones. Sums, differences and
products are those of the numbers up to a power of two, quotients are cut towards zero, and shifts
multiply and divide by powers of two.
-/
namespace Dynarec

open BitVec BinOp Ty

namespace Ty

variable {t : Ty} {x y : UInt64}

/-- The number that the low bits of a word stand for. -/
def nat (t : Ty) (x : UInt64) : Nat :=
  x.toNat % 2 ^ t.bits

/-- The number that the low bits stand for if the highest of them is a sign. -/
def int (t : Ty) (x : UInt64) : Int :=
  if 2 * t.nat x < 2 ^ t.bits then t.nat x else (t.nat x : Int) - 2 ^ t.bits

theorem nat_eq (t : Ty) (x : UInt64) : t.nat x = (t.low x).toNat :=
  (t.toNat_low x).symm

theorem int_eq (t : Ty) (x : UInt64) : t.int x = (t.low x).toInt := by
  rw [toInt_eq_toNat_cond, ← nat_eq, int]
  push_cast
  rfl

theorem nat_inj : t.nat x = t.nat y ↔ t.low x = t.low y := by
  rw [nat_eq, nat_eq, toNat_inj]

theorem nat_eq_zero_iff : t.nat x = 0 ↔ t.low x = 0 := by
  rw [nat_eq, ← toNat_inj]
  rfl

theorem Fits.toNat_eq (h : t.bits ≤ 64) (hx : t.Fits x) : x.toNat = t.nat x :=
  (Nat.mod_eq_of_lt ((fits_iff_lt h x).mp hx)).symm

end Ty

/-- What a comparison says of its operands, read without a sign as `a` and `b` and with one as `p`
and `q`. -/
def CmpOp.Orders (a b : Nat) (p q : Int) : CmpOp → Prop
  | eq => a = b
  | ne => a ≠ b
  | ugt => b < a
  | uge => b ≤ a
  | ult => a < b
  | ule => a ≤ b
  | sgt => q < p
  | sge => q ≤ p
  | slt => p < q
  | sle => p ≤ q

namespace Eval

/-- The operators at a type, as arithmetic on the numbers that two words stand for. -/
structure TwosComplement (t : Ty) (x y : UInt64) : Prop where
  /-- Only the low bits of the operands count. -/
  binop_congr : ∀ op x' y', t.nat x' = t.nat x → t.nat y' = t.nat y →
    binop op t x' y' = binop op t x y
  cmp_congr : ∀ op x' y', t.nat x' = t.nat x → t.nat y' = t.nat y → cmp op t x' y' = cmp op t x y
  cvt_congr : ∀ op u x', t.nat x' = t.nat x → cvt op t u x' = cvt op t u x
  binop_lt : ∀ op, (binop op t x y).toNat < 2 ^ t.bits
  add : (binop .add t x y).toNat = (t.nat x + t.nat y) % 2 ^ t.bits
  sub : ((binop .sub t x y).toNat : Int) = (t.nat x - t.nat y : Int) % 2 ^ t.bits
  mul : (binop .mul t x y).toNat = t.nat x * t.nat y % 2 ^ t.bits
  and : (binop .and t x y).toNat = t.nat x &&& t.nat y
  or : (binop .or t x y).toNat = t.nat x ||| t.nat y
  xor : (binop .xor t x y).toNat = t.nat x ^^^ t.nat y
  udiv : t.nat y ≠ 0 →
    t.nat x = (binop .udiv t x y).toNat * t.nat y + (binop .urem t x y).toNat ∧
      (binop .urem t x y).toNat < t.nat y
  /-- The remainder has the sign of the dividend. -/
  sdiv : t.nat y ≠ 0 →
    t.int x ≡ t.int (binop .sdiv t x y) * t.int y + t.int (binop .srem t x y) [ZMOD 2 ^ t.bits] ∧
      |t.int (binop .srem t x y)| < |t.int y| ∧
      (0 ≤ t.int x → 0 ≤ t.int (binop .srem t x y)) ∧ (t.int x ≤ 0 → t.int (binop .srem t x y) ≤ 0)
  sdiv_tdiv : t.nat y ≠ 0 → ¬(t.int x = -2 ^ (t.bits - 1) ∧ t.int y = -1) →
    t.int (binop .sdiv t x y) = (t.int x).tdiv (t.int y)
  /-- The one quotient that is no number of the type. -/
  sdiv_least : t.int x = -2 ^ (t.bits - 1) → t.int y = -1 →
    t.int (binop .sdiv t x y) = -2 ^ (t.bits - 1) ∧ (binop .srem t x y).toNat = 0
  udiv_zero : t.nat y = 0 →
    (binop .udiv t x y).toNat = 2 ^ t.bits - 1 ∧ (binop .urem t x y).toNat = t.nat x
  sdiv_zero : t.nat y = 0 → (t.int x < 0 → (binop .sdiv t x y).toNat = 1) ∧
    (0 ≤ t.int x → t.int (binop .sdiv t x y) = -1) ∧ (binop .srem t x y).toNat = t.nat x
  sll : (binop .sll t x y).toNat = t.nat x * 2 ^ (t.nat y % max t.bits 32) % 2 ^ t.bits
  srl : (binop .srl t x y).toNat = t.nat x / 2 ^ (t.nat y % max t.bits 32)
  sra : t.int (binop .sra t x y) = t.int x / 2 ^ (t.nat y % max t.bits 32)
  /-- A count that reaches the width leaves zero or the sign. -/
  shift_out : t.bits ≤ t.nat y % max t.bits 32 →
    (binop .sll t x y).toNat = 0 ∧ (binop .srl t x y).toNat = 0 ∧
      t.int (binop .sra t x y) = if t.int x < 0 then -1 else 0
  cmp_iff : ∀ op, cmp op t x y = true ↔ op.Orders (t.nat x) (t.nat y) (t.int x) (t.int y)
  cvt_lt : ∀ op {u : Ty}, u.IsScalar → (cvt op t u x).toNat < 2 ^ u.bits
  trunc : ∀ {u : Ty}, u.IsScalar → u.bits ≤ t.bits → (cvt .trunc t u x).toNat = u.nat x
  zext : ∀ {u : Ty}, u.IsScalar → t.bits ≤ u.bits → (cvt .zext t u x).toNat = t.nat x
  sext : ∀ {u : Ty}, u.IsScalar → t.bits ≤ u.bits → u.int (cvt .sext t u x) = t.int x

variable {t : Ty} {x y : UInt64} (ht : t.IsScalar)
include ht

theorem toNat_binop (op : BinOp) (x y : UInt64) :
    (binop op t x y).toNat = (op.onBits (t.low x) (t.low y)).toNat := by
  rw [(fits_binop op t x y).toNat_eq ht.bits_le, nat_eq, low_binop ht]

theorem int_binop (op : BinOp) (x y : UInt64) :
    t.int (binop op t x y) = (op.onBits (t.low x) (t.low y)).toInt := by
  rw [int_eq, low_binop ht]

theorem binop_congr {x' y' : UInt64} (op : BinOp) (hx : t.nat x' = t.nat x)
    (hy : t.nat y' = t.nat y) : binop op t x' y' = binop op t x y := by
  rw [← UInt64.toNat_inj, toNat_binop ht, toNat_binop ht, nat_inj.mp hx, nat_inj.mp hy]

theorem cvt_congr {x' : UInt64} (op : CvtOp) (u : Ty) (hx : t.nat x' = t.nat x) :
    cvt op t u x' = cvt op t u x := by
  have hcut : x' &&& t.mask = x &&& t.mask := (low_eq_iff ht.bits_le).mp (nat_inj.mp hx)
  simp only [cvt, hcut]

theorem toNat_sub : ((binop .sub t x y).toNat : Int) = (t.nat x - t.nat y : Int) % 2 ^ t.bits := by
  have hlt := (t.low y).isLt
  rw [toNat_binop ht, onBits, BitVec.toNat_sub, nat_eq, nat_eq]
  push_cast [Nat.cast_sub hlt.le]
  rw [show (2 ^ t.bits - (t.low y).toNat + (t.low x).toNat : Int) =
    (t.low x).toNat - (t.low y).toNat + 2 ^ t.bits by ring, Int.add_emod_right]

theorem udiv_add_urem (hy : t.nat y ≠ 0) :
    t.nat x = (binop .udiv t x y).toNat * t.nat y + (binop .urem t x y).toNat ∧
      (binop .urem t x y).toNat < t.nat y := by
  have hy' : t.low y ≠ 0 := mt nat_eq_zero_iff.mpr hy
  rw [toNat_binop ht, toNat_binop ht, onBits, onBits, if_neg hy', toNat_udiv,
    toNat_umod, ← nat_eq, ← nat_eq]
  exact ⟨(Nat.div_add_mod' _ _).symm, Nat.mod_lt _ (Nat.pos_of_ne_zero hy)⟩

theorem int_srem (x y : UInt64) : t.int (binop .srem t x y) = (t.int x).tmod (t.int y) := by
  rw [int_binop ht, onBits, toInt_srem, ← int_eq, ← int_eq]

theorem int_sdiv (hy : t.nat y ≠ 0) :
    t.int (binop .sdiv t x y) = ((t.int x).tdiv (t.int y)).bmod (2 ^ t.bits) := by
  have hy' : t.low y ≠ 0 := mt nat_eq_zero_iff.mpr hy
  rw [int_binop ht, onBits, if_neg hy', toInt_sdiv, ← int_eq, ← int_eq]

omit ht in
theorem int_ne_zero (hy : t.nat y ≠ 0) : t.int y ≠ 0 := by
  rw [int_eq]
  intro hzero
  exact hy (nat_eq_zero_iff.mpr (eq_of_toInt_eq (hzero.trans toInt_zero.symm)))

theorem sdiv_add_srem (hy : t.nat y ≠ 0) : t.int x ≡
    t.int (binop .sdiv t x y) * t.int y + t.int (binop .srem t x y) [ZMOD 2 ^ t.bits] := by
  have hquotient : t.int (binop .sdiv t x y) ≡ (t.int x).tdiv (t.int y) [ZMOD 2 ^ t.bits] := by
    rw [int_sdiv ht hy]
    exact_mod_cast Int.bmod_emod
  have hsum := ((hquotient.mul_right (t.int y)).add_right ((t.int x).tmod (t.int y))).symm
  rwa [Int.tdiv_mul_add_tmod, ← int_srem ht] at hsum

theorem abs_srem_lt (hy : t.nat y ≠ 0) : |t.int (binop .srem t x y)| < |t.int y| := by
  have hlt := Nat.mod_lt (t.int x).natAbs (Int.natAbs_pos.mpr (int_ne_zero hy))
  rw [int_srem ht, Int.abs_eq_natAbs, Int.abs_eq_natAbs, Int.natAbs_tmod]
  exact_mod_cast hlt

theorem srem_nonpos (hx : t.int x ≤ 0) : t.int (binop .srem t x y) ≤ 0 := by
  have hneg := Int.tmod_nonneg (t.int y) (neg_nonneg.mpr hx)
  rw [Int.neg_tmod] at hneg
  rw [int_srem ht]
  exact neg_nonneg.mp hneg

/-- The quotient is a number of the type unless the least number is divided by -1. -/
theorem sdiv_eq_tdiv (hy : t.nat y ≠ 0) (hfits : ¬(t.int x = -2 ^ (t.bits - 1) ∧ t.int y = -1)) :
    t.int (binop .sdiv t x y) = (t.int x).tdiv (t.int y) := by
  have hy' : t.low y ≠ 0 := mt nat_eq_zero_iff.mpr hy
  rw [int_binop ht, onBits, if_neg hy', int_eq, int_eq]
  refine toInt_sdiv_of_ne_or_ne _ _ (not_and_or.mp fun hboth => hfits ?_)
  rw [int_eq, int_eq, hboth.1, hboth.2]
  rcases ht.cases with rfl | rfl | rfl | rfl | rfl <;> decide

theorem sdiv_least (hx : t.int x = -2 ^ (t.bits - 1)) (hy : t.int y = -1) :
    t.int (binop .sdiv t x y) = -2 ^ (t.bits - 1) ∧ (binop .srem t x y).toNat = 0 := by
  have hne : t.nat y ≠ 0 := by
    intro hzero
    rw [int_eq, nat_eq_zero_iff.mp hzero] at hy
    simp at hy
  constructor
  · rw [int_sdiv ht hne, hx, hy]
    rcases ht.cases with rfl | rfl | rfl | rfl | rfl <;> decide
  · have hrem : t.int (binop .srem t x y) = 0 := by
      rw [int_srem ht, hy, Int.tmod_neg, Int.tmod_one]
    by_contra hne'
    rw [(fits_binop .srem t x y).toNat_eq ht.bits_le] at hne'
    exact int_ne_zero hne' hrem

theorem udiv_zero (hy : t.nat y = 0) :
    (binop .udiv t x y).toNat = 2 ^ t.bits - 1 ∧ (binop .urem t x y).toNat = t.nat x := by
  have hy' := nat_eq_zero_iff.mp hy
  rw [toNat_binop ht, toNat_binop ht, onBits, onBits, if_pos hy', hy',
    toNat_allOnes, nat_eq]
  exact ⟨rfl, congrArg BitVec.toNat BitVec.umod_zero⟩

theorem sdiv_zero (hy : t.nat y = 0) : (t.int x < 0 → (binop .sdiv t x y).toNat = 1) ∧
    (0 ≤ t.int x → t.int (binop .sdiv t x y) = -1) ∧ (binop .srem t x y).toNat = t.nat x := by
  have hy' := nat_eq_zero_iff.mp hy
  have hmsb : (t.low x).msb = true ↔ t.int x < 0 := by
    rw [msb_eq_toInt, decide_eq_true_eq, int_eq]
  refine ⟨fun hneg => ?_, fun hpos => ?_, ?_⟩
  · rw [toNat_binop ht, onBits, if_pos hy', if_pos (hmsb.mpr hneg)]
    rcases ht.cases with rfl | rfl | rfl | rfl | rfl <;> rfl
  · rw [int_binop ht, onBits, if_pos hy', if_neg (mt hmsb.mp hpos.not_gt), toInt_allOnes,
      if_pos ht.bits_pos]
  · rw [toNat_binop ht, onBits, hy', nat_eq]
    exact congrArg BitVec.toNat BitVec.srem_zero

theorem shiftModulus_eq : shiftModulus t.bits = max t.bits 32 := by
  rcases ht.cases with rfl | rfl | rfl | rfl | rfl <;> rfl

theorem shift_out (hy : t.bits ≤ t.nat y % max t.bits 32) :
    (binop .sll t x y).toNat = 0 ∧ (binop .srl t x y).toNat = 0 ∧
      t.int (binop .sra t x y) = if t.int x < 0 then -1 else 0 := by
  rw [← shiftModulus_eq ht, nat_eq] at hy
  have hleft := low_shiftedOut ht .sll x rfl hy
  have hright := low_shiftedOut ht .srl x rfl hy
  have hsign := low_shiftedOut ht .sra x rfl hy
  have hneg : signed t x < 0 ↔ t.int x < 0 := by
    rw [Int64.lt_iff_toInt_lt, signed_toInt ht, int_eq]
    rfl
  rw [toNat_binop ht, toNat_binop ht, int_binop ht, ← hleft, ← hright, ← hsign]
  refine ⟨by simp [shiftedOut], by simp [shiftedOut], ?_⟩
  simp only [shiftedOut, hneg, true_and]
  split_ifs
  · rw [low_mask ht.bits_le, toInt_allOnes, if_pos ht.bits_pos]
  · rw [low_zero]
    exact toInt_zero

theorem cmp_iff (op : CmpOp) :
    cmp op t x y = true ↔ op.Orders (t.nat x) (t.nat y) (t.int x) (t.int y) := by
  rw [cmp_eq_onBits ht, nat_eq, nat_eq, int_eq, int_eq]
  generalize t.low x = a
  generalize t.low y = b
  cases op <;> simp [CmpOp.onBits, CmpOp.Orders, BitVec.toNat_inj, BitVec.ult, BitVec.ule, BitVec.slt,
    BitVec.sle]

theorem toNat_cvt {u : Ty} (hu : u.IsScalar) (op : CvtOp) :
    (cvt op t u x).toNat = (op.onBits u.bits (t.low x)).toNat := by
  rw [(fits_cvt op t u x).toNat_eq hu.bits_le, nat_eq, low_cvt ht hu]

/-- Every operator of the evaluator is the operation of arithmetic in two's complement. -/
theorem twosComplement (x y : UInt64) : TwosComplement t x y where
  binop_congr op _ _ := binop_congr ht op
  cmp_congr op x' y' hx hy := by
    rw [cmp_eq_onBits ht, cmp_eq_onBits ht, Ty.nat_inj.mp hx, Ty.nat_inj.mp hy]
  cvt_congr op u _ := cvt_congr ht op u
  binop_lt op := (Ty.fits_iff_lt ht.bits_le _).mp (fits_binop op t x y)
  add := by rw [toNat_binop ht, BinOp.onBits, BitVec.toNat_add, Ty.nat_eq, Ty.nat_eq]
  sub := toNat_sub ht
  mul := by rw [toNat_binop ht, BinOp.onBits, BitVec.toNat_mul, Ty.nat_eq, Ty.nat_eq]
  and := by rw [toNat_binop ht, BinOp.onBits, BitVec.toNat_and, Ty.nat_eq, Ty.nat_eq]
  or := by rw [toNat_binop ht, BinOp.onBits, BitVec.toNat_or, Ty.nat_eq, Ty.nat_eq]
  xor := by rw [toNat_binop ht, BinOp.onBits, BitVec.toNat_xor, Ty.nat_eq, Ty.nat_eq]
  udiv := udiv_add_urem ht
  sdiv hy := ⟨sdiv_add_srem ht hy, abs_srem_lt ht hy,
    fun hx => int_srem ht x y ▸ Int.tmod_nonneg _ hx, srem_nonpos ht⟩
  sdiv_tdiv := sdiv_eq_tdiv ht
  sdiv_least := sdiv_least ht
  udiv_zero := udiv_zero ht
  sdiv_zero := sdiv_zero ht
  sll := by
    rw [toNat_binop ht, BinOp.onBits, BitVec.toNat_shiftLeft, Nat.shiftLeft_eq, shiftModulus_eq ht,
      Ty.nat_eq, Ty.nat_eq]
  srl := by
    rw [toNat_binop ht, BinOp.onBits, BitVec.toNat_ushiftRight, Nat.shiftRight_eq_div_pow,
      shiftModulus_eq ht, Ty.nat_eq, Ty.nat_eq]
  sra := by
    rw [int_binop ht, BinOp.onBits, BitVec.toInt_sshiftRight, Int.shiftRight_eq_div_pow,
      shiftModulus_eq ht, Ty.int_eq, Ty.nat_eq]
    push_cast
    rfl
  shift_out := shift_out ht
  cmp_iff := cmp_iff ht
  cvt_lt op u hu := (Ty.fits_iff_lt hu.bits_le _).mp (fits_cvt op t u x)
  trunc hu hle := by
    rw [toNat_cvt ht hu, CvtOp.onBits, BitVec.toNat_setWidth, ← Ty.nat_eq, Ty.nat, Ty.nat]
    exact Nat.mod_mod_of_dvd _ (Nat.pow_dvd_pow 2 hle)
  zext {u} hu hle := by
    rw [toNat_cvt ht hu, CvtOp.onBits, BitVec.toNat_setWidth, ← Ty.nat_eq]
    refine Nat.mod_eq_of_lt (lt_of_lt_of_le ?_ (Nat.pow_le_pow_right two_pos hle))
    exact Nat.mod_lt _ (Nat.two_pow_pos _)
  sext hu hle := by
    rw [Ty.int_eq, low_cvt ht hu, CvtOp.onBits, BitVec.toInt_signExtend_of_le hle, Ty.int_eq]

omit ht in
/-- The least number of a byte divided by -1, with bits above the byte. -/
theorem twosComplement_least : Ty.i8.IsScalar ∧ Ty.i8.int 0x1280 = -128 ∧ Ty.i8.int 0xff = -1 ∧
    TwosComplement Ty.i8 0x1280 0xff :=
  ⟨by decide, by decide, by decide, twosComplement (by decide) 0x1280 0xff⟩

end Eval

end Dynarec
