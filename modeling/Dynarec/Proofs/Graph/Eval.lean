import Dynarec.Graph.Eval
import Mathlib.Tactic

/-!
# The evaluator on bit vectors

A word of a type stands for the bit vector of its low bits. Every operator of the evaluator is the
operation on bit vectors of the same name, except that division by zero and shift counts follow the
rules of the evaluator. A word that fits its type is determined by its bit vector, so identities of the
evaluator follow from identities of bit vectors.
-/
namespace Dynarec

open BitVec BinOp

namespace Ty

variable {t : Ty}

/-- The low bits of a word, as many as the type has. -/
def low (t : Ty) (x : UInt64) : BitVec t.bits :=
  x.toBitVec.setWidth t.bits

/-- The word has no bit above the width of the type. -/
def Fits (t : Ty) (x : UInt64) : Prop :=
  x &&& t.mask = x

instance (t : Ty) (x : UInt64) : Decidable (t.Fits x) :=
  inferInstanceAs (Decidable (_ = _))

/-- A type that values have: one of the widths in use, and not void. -/
def IsScalar (t : Ty) : Prop :=
  t.isValid = true ∧ t ≠ void

instance (t : Ty) : Decidable t.IsScalar :=
  inferInstanceAs (Decidable (_ ∧ _))

theorem IsScalar.cases (h : t.IsScalar) : t = i1 ∨ t = i8 ∨ t = i16 ∨ t = i32 ∨ t = i64 := by
  obtain ⟨hv, hn⟩ := h
  simp only [isValid, Bool.or_eq_true, decide_eq_true_eq] at hv
  tauto

theorem IsScalar.bits_pos (h : t.IsScalar) : 0 < t.bits := by
  rcases h.cases with rfl | rfl | rfl | rfl | rfl <;> decide

theorem IsScalar.bytes_pos (h : t.IsScalar) : 0 < t.bytes := by
  rcases h.cases with rfl | rfl | rfl | rfl | rfl <;> decide

theorem IsScalar.bytes_dvd (h : t.IsScalar) : t.bytes ∣ 8 := by
  rcases h.cases with rfl | rfl | rfl | rfl | rfl <;> decide

theorem IsScalar.bits_le_access (h : t.IsScalar) : t.bits ≤ 8 * t.accessBytes := by
  rcases h.cases with rfl | rfl | rfl | rfl | rfl <;> decide

theorem IsScalar.bits_le (h : t.IsScalar) : t.bits ≤ 64 := by
  rcases h.cases with rfl | rfl | rfl | rfl | rfl <;> decide

theorem mask_toNat (h : t.bits ≤ 64) : t.mask.toNat = 2 ^ t.bits - 1 := by
  unfold mask
  split_ifs with hb
  · have : t.bits = 64 := by omega
    rw [this]
    decide
  · have hlt : t.bits < 64 := by omega
    have hpow : 2 ^ t.bits < 2 ^ 64 := Nat.pow_lt_pow_right (by omega) hlt
    have hsmall : t.bits < 2 ^ 64 := by omega
    have hshift : ((1 : UInt64) <<< t.bits.toUInt64).toNat = 2 ^ t.bits := by
      rw [UInt64.toNat_shiftLeft]
      have hn : t.bits.toUInt64.toNat % 64 = t.bits := by
        rw [Nat.toUInt64_eq, UInt64.toNat_ofNat', Nat.mod_eq_of_lt hsmall, Nat.mod_eq_of_lt hlt]
      rw [hn]
      simp only [UInt64.toNat_one, Nat.shiftLeft_eq, one_mul]
      exact Nat.mod_eq_of_lt hpow
    rw [UInt64.toNat_sub_of_le, hshift]
    · rfl
    · rw [UInt64.le_iff_toNat_le, hshift]
      exact Nat.one_le_two_pow

theorem toNat_and_mask (h : t.bits ≤ 64) (x : UInt64) :
    (x &&& t.mask).toNat = x.toNat % 2 ^ t.bits := by
  rw [UInt64.toNat_and, mask_toNat h, Nat.and_two_pow_sub_one_eq_mod]

@[simp] theorem toNat_low (t : Ty) (x : UInt64) : (t.low x).toNat = x.toNat % 2 ^ t.bits := by
  simp [low]

theorem fits_iff_lt (h : t.bits ≤ 64) (x : UInt64) : t.Fits x ↔ x.toNat < 2 ^ t.bits := by
  rw [Fits, ← UInt64.toNat_inj, toNat_and_mask h]
  constructor
  · intro he
    rw [← he]
    exact Nat.mod_lt _ (Nat.two_pow_pos _)
  · exact Nat.mod_eq_of_lt

theorem fits_and_mask (t : Ty) (x : UInt64) : t.Fits (x &&& t.mask) := by
  rw [Fits, UInt64.and_assoc, UInt64.and_self]

theorem fits_zero (t : Ty) : t.Fits 0 :=
  UInt64.zero_and

theorem fits_iff_no_high (t : Ty) (x : UInt64) : x &&& ~~~t.mask = 0 ↔ t.Fits x := by
  rw [Fits, ← UInt64.toBitVec_inj, ← UInt64.toBitVec_inj]
  simp only [UInt64.toBitVec_and, UInt64.toBitVec_not, UInt64.toBitVec_zero]
  constructor
  · intro h
    apply eq_of_getLsbD_eq
    intro i hi
    have hb := congrArg (fun b => b.getLsbD i) h
    simp only [getLsbD_and, getLsbD_not, getLsbD_zero, hi, decide_true,
      Bool.true_and] at hb
    rw [getLsbD_and]
    revert hb
    cases x.toBitVec.getLsbD i <;> cases t.mask.toBitVec.getLsbD i <;> simp
  · intro h
    rw [← h, BitVec.and_assoc]
    simp

theorem low_eq_iff (h : t.bits ≤ 64) {x y : UInt64} :
    t.low x = t.low y ↔ x &&& t.mask = y &&& t.mask := by
  rw [← toNat_inj, toNat_low, toNat_low, ← UInt64.toNat_inj, toNat_and_mask h,
    toNat_and_mask h]

theorem low_and_mask (h : t.bits ≤ 64) (x : UInt64) : t.low (x &&& t.mask) = t.low x := by
  rw [low_eq_iff h, UInt64.and_assoc, UInt64.and_self]

/-- A word that fits is determined by its low bits. -/
theorem Fits.eq_of_low_eq (h : t.bits ≤ 64) {x y : UInt64} (hx : t.Fits x) (hy : t.Fits y)
    (he : t.low x = t.low y) : x = y := by
  rw [low_eq_iff h] at he
  rw [← hx, ← hy, he]

theorem low_zero (t : Ty) : t.low 0 = 0 := by
  simp [low]

theorem low_add (h : t.bits ≤ 64) (x y : UInt64) : t.low (x + y) = t.low x + t.low y :=
  setWidth_add _ _ h

theorem low_and (t : Ty) (x y : UInt64) : t.low (x &&& y) = t.low x &&& t.low y :=
  setWidth_and

theorem low_or (t : Ty) (x y : UInt64) : t.low (x ||| y) = t.low x ||| t.low y :=
  setWidth_or

theorem low_ofNat (t : Ty) {n : Nat} (hn : n < 2 ^ 64) :
    t.low (.ofNat n) = BitVec.ofNat t.bits n := by
  apply eq_of_toNat_eq
  rw [toNat_low, UInt64.toNat_ofNat_of_lt' hn, toNat_ofNat]

theorem low_mask (h : t.bits ≤ 64) : t.low t.mask = allOnes t.bits := by
  rw [← toNat_inj, toNat_low, mask_toNat h, toNat_allOnes]
  exact Nat.mod_eq_of_lt (Nat.sub_lt (Nat.two_pow_pos _) one_pos)

theorem Fits.low_eq_zero_iff (h : t.bits ≤ 64) {x : UInt64} (hx : t.Fits x) :
    t.low x = 0 ↔ x = 0 := by
  constructor
  · intro he
    exact hx.eq_of_low_eq h t.fits_zero (by rw [he, low_zero])
  · rintro rfl
    exact t.low_zero

end Ty

/-- The count of a shift is taken modulo this. -/
def shiftModulus (n : Nat) : Nat :=
  if 32 < n then 64 else 32

/-- The operation on bit vectors that an operator stands for. -/
def BinOp.onBits {n : Nat} (op : BinOp) (x y : BitVec n) : BitVec n :=
  match op with
  | .add => x + y
  | .sub => x - y
  | .mul => x * y
  | .udiv => if y = 0 then allOnes n else x / y
  | .sdiv => if y = 0 then (if x.msb then 1 else allOnes n) else x.sdiv y
  | .urem => x % y
  | .srem => x.srem y
  | .sll => x <<< (y.toNat % shiftModulus n)
  | .srl => x >>> (y.toNat % shiftModulus n)
  | .sra => x.sshiftRight (y.toNat % shiftModulus n)
  | .and => x &&& y
  | .or => x ||| y
  | .xor => x ^^^ y

def CmpOp.onBits {n : Nat} (op : CmpOp) (x y : BitVec n) : Bool :=
  match op with
  | .eq => x == y
  | .ne => x != y
  | .ugt => y.ult x
  | .uge => y.ule x
  | .ult => x.ult y
  | .ule => x.ule y
  | .sgt => y.slt x
  | .sge => y.sle x
  | .slt => x.slt y
  | .sle => x.sle y

def CvtOp.onBits {n : Nat} (op : CvtOp) (m : Nat) (x : BitVec n) : BitVec m :=
  match op with
  | .sext => x.signExtend m
  | .trunc | .zext => x.setWidth m

namespace Eval

open Ty

variable {t : Ty} {x y c : UInt64}

theorem signed_toBitVec (h : t.IsScalar) (x : UInt64) :
    (signed t x).toBitVec = (t.low x).signExtend 64 := by
  have hpos := h.bits_pos
  have hle := h.bits_le
  unfold signed
  split_ifs with hb
  · have h64 : t.bits = 64 := by omega
    obtain ⟨bits⟩ := t
    simp only at h64
    subst h64
    show x.toBitVec = _
    simp [low]
  · have hlt : t.bits < 64 := by omega
    have hk : ((64 - t.bits).toUInt64.toBitVec).toNat = 64 - t.bits := by
      simp only [Nat.toUInt64_eq, UInt64.toBitVec_ofNat', toNat_ofNat]
      omega
    have hmod : (64 - t.bits).toUInt64.toBitVec % 64 = (64 - t.bits).toUInt64.toBitVec := by
      rw [← toNat_inj, toNat_umod, hk]
      exact Nat.mod_eq_of_lt (by simp; omega)
    have hsmod : (64 - t.bits).toUInt64.toBitVec.smod 64 = (64 - t.bits).toUInt64.toBitVec := by
      have hmsb : (64 - t.bits).toUInt64.toBitVec.msb = false := by
        rw [msb_eq_false_iff_two_mul_lt, hk]
        omega
      rw [smod_eq, hmsb]
      exact hmod
    rw [Int64.toBitVec_shiftRight]
    show ((x <<< (64 - t.bits).toUInt64).toBitVec).sshiftRight'
      ((64 - t.bits).toUInt64.toBitVec.smod 64) = _
    rw [hsmod, UInt64.toBitVec_shiftLeft, hmod, sshiftRight_eq', shiftLeft_eq', hk]
    apply eq_of_getLsbD_eq
    intro i hi
    rw [getLsbD_sshiftRight, getLsbD_signExtend]
    by_cases hin : i < t.bits
    · have h1 : 64 - t.bits + i < 64 := by omega
      have h2 : ¬ 64 - t.bits + i < 64 - t.bits := by omega
      have h3 : 64 - t.bits + i - (64 - t.bits) = i := by omega
      simp [hi, hin, h1, h2, h3, low]
    · have h1 : ¬ 64 - t.bits + i < 64 := by omega
      have h2 : ¬ 63 < 64 - t.bits := by omega
      have h3 : 63 - (64 - t.bits) = t.bits - 1 := by omega
      have h4 : t.bits - 1 < t.bits := by omega
      simp only [h1, hin, if_false, msb_eq_getLsbD_last, getLsbD_shiftLeft, h2, h3,
        low, getLsbD_setWidth, h4]
      simp [hi]

theorem signed_toInt (h : t.IsScalar) (x : UInt64) : (signed t x).toInt = (t.low x).toInt := by
  show (signed t x).toBitVec.toInt = _
  rw [signed_toBitVec h, toInt_signExtend, min_eq_right h.bits_le]
  exact toInt_bmod_cancel _

theorem low_toUInt64 (t : Ty) (z : Int64) : t.low z.toUInt64 = z.toBitVec.setWidth t.bits := rfl

theorem toInt_setWidth_signed {n : Nat} (hn : n ≤ 64) (z : Int64) :
    (z.toBitVec.setWidth n).toInt = z.toInt.bmod (2 ^ n) := by
  rw [toInt_setWidth]
  show _ = (z.toBitVec.toInt).bmod (2 ^ n)
  rw [toInt_eq_toNat_bmod, Int.bmod_bmod_of_dvd (Nat.pow_dvd_pow 2 hn)]

theorem low_minSigned (h : t.IsScalar) : t.low (minSigned t) = intMin t.bits := by
  rcases h.cases with rfl | rfl | rfl | rfl | rfl <;> rfl

theorem signed_neg_iff (h : t.IsScalar) (x : UInt64) : signed t x < 0 ↔ (t.low x).msb = true := by
  rw [Int64.lt_iff_toInt_lt, signed_toInt h, Int64.toInt_zero, msb_eq_toInt,
    decide_eq_true_eq]

theorem low_sdiv (h : t.IsScalar) (hx : t.Fits x) (hy : t.Fits y) :
    t.low (sdiv t x y) = BinOp.sdiv.onBits (t.low x) (t.low y) := by
  have hle := h.bits_le
  simp only [sdiv, onBits, hy.low_eq_zero_iff hle, signed_neg_iff h]
  by_cases hy0 : y = 0
  · simp only [hy0, if_true]
    split_ifs
    · have : (1 : UInt64).toNat = 1 := rfl
      rw [← toNat_inj, toNat_low, this]
      rfl
    · exact low_mask hle
  · simp only [hy0, if_false]
    apply eq_of_toInt_eq
    rw [toInt_sdiv]
    split_ifs with hmin
    · obtain ⟨rfl, hneg⟩ := hmin
      have hone : (t.low y).toInt = -1 := by
        rw [← signed_toInt h, hneg]
        rfl
      rw [hone, low_minSigned h, Int.tdiv_neg, Int.tdiv_one]
      rcases h.cases with rfl | rfl | rfl | rfl | rfl <;> decide
    · rw [low_toUInt64, toInt_setWidth_signed hle, Int64.toInt_div, signed_toInt h, signed_toInt h,
        Int.bmod_bmod_of_dvd (Nat.pow_dvd_pow 2 hle)]

theorem low_srem (h : t.IsScalar) (x y : UInt64) :
    t.low (srem t x y) = BinOp.srem.onBits (t.low x) (t.low y) := by
  have hle := h.bits_le
  simp only [srem, onBits]
  by_cases hy0 : y = 0
  · rw [if_pos hy0, hy0, low_zero]
    apply eq_of_toInt_eq
    rw [toInt_srem]
    simp
  · rw [if_neg hy0]
    apply eq_of_toInt_eq
    rw [toInt_srem]
    split_ifs with hmin
    · obtain ⟨rfl, hneg⟩ := hmin
      have hone : (t.low y).toInt = -1 := by
        rw [← signed_toInt h, hneg]
        rfl
      rw [hone, low_zero]
      simp
    · rw [low_toUInt64, toInt_setWidth_signed hle, Int64.toInt_mod, signed_toInt h, signed_toInt h,
        ← toInt_srem]
      exact toInt_bmod_cancel _

theorem toNat_shiftCount (y : UInt64) :
    (y &&& t.shiftMask).toNat = y.toNat % shiftModulus t.bits := by
  unfold shiftMask shiftModulus
  split_ifs
  · exact Nat.and_two_pow_sub_one_eq_mod y.toNat 6
  · exact Nat.and_two_pow_sub_one_eq_mod y.toNat 5

theorem shiftModulus_le (n : Nat) : shiftModulus n ≤ 64 := by
  unfold shiftModulus
  split_ifs <;> omega

theorem shiftModulus_pos (n : Nat) : 0 < shiftModulus n := by
  unfold shiftModulus
  split_ifs <;> omega

theorem low_shiftLeft (hle : t.bits ≤ 64) (hc : c.toNat < 64) :
    t.low (x <<< c) = t.low x <<< c.toNat := by
  have hmod : c.toBitVec % 64 = c.toBitVec := by
    rw [← toNat_inj, toNat_umod]
    exact Nat.mod_eq_of_lt hc
  apply eq_of_getLsbD_eq
  intro i hi
  have h64 : i < 64 := by omega
  have hsub : i - c.toNat < t.bits := by omega
  simp only [low, UInt64.toBitVec_shiftLeft, hmod, shiftLeft_eq', getLsbD_setWidth,
    getLsbD_shiftLeft, hi, decide_true, Bool.true_and, UInt64.toNat_toBitVec]
  simp [h64, hsub]

theorem low_shiftRight (hle : t.bits ≤ 64) (hx : t.Fits x) (hc : c.toNat < 64) :
    t.low (x >>> c) = t.low x >>> c.toNat := by
  have hlt := (fits_iff_lt hle x).mp hx
  rw [← toNat_inj, toNat_low, toNat_ushiftRight, toNat_low,
    UInt64.toNat_shiftRight, Nat.mod_eq_of_lt hc, Nat.mod_eq_of_lt hlt, Nat.shiftRight_eq_div_pow]
  exact Nat.mod_eq_of_lt ((Nat.div_le_self _ _).trans_lt hlt)

theorem low_signedShiftRight (h : t.IsScalar) (hc : c.toNat < 64) :
    t.low (signed t x >>> c.toInt64).toUInt64 = (t.low x).sshiftRight c.toNat := by
  have hle := h.bits_le
  have hpos := h.bits_pos
  have hsmod : c.toBitVec.smod 64 = c.toBitVec := by
    have hmsb : c.toBitVec.msb = false := by
      rw [msb_eq_false_iff_two_mul_lt, UInt64.toNat_toBitVec]
      omega
    rw [smod_eq, hmsb, ← toNat_inj]
    exact Nat.mod_eq_of_lt hc
  rw [low_toUInt64, Int64.toBitVec_shiftRight]
  show setWidth _ ((signed t x).toBitVec.sshiftRight' (c.toBitVec.smod 64)) = _
  rw [hsmod, sshiftRight_eq', UInt64.toNat_toBitVec, signed_toBitVec h]
  apply eq_of_getLsbD_eq
  intro i hi
  have hmsb : ((t.low x).signExtend 64).msb = (t.low x).msb := by
    rw [msb_eq_toInt, msb_eq_toInt, ← signed_toBitVec h]
    exact congrArg (fun z : Int => decide (z < 0)) (signed_toInt h x)
  rw [getLsbD_setWidth, getLsbD_sshiftRight, getLsbD_sshiftRight, hmsb,
    getLsbD_signExtend]
  have h64 : ¬ 64 ≤ i := by omega
  have hni : ¬ t.bits ≤ i := by omega
  by_cases h1 : c.toNat + i < 64
  · by_cases h2 : c.toNat + i < t.bits <;> simp [hi, h64, hni, h1, h2]
  · have h2 : ¬ c.toNat + i < t.bits := by omega
    simp [hi, h64, hni, h1, h2]

theorem signed_and_mask (h : t.IsScalar) (x : UInt64) : signed t (x &&& t.mask) = signed t x := by
  apply Int64.toBitVec.inj
  rw [signed_toBitVec h, signed_toBitVec h, low_and_mask h.bits_le]

/-- A shift that moves every bit out leaves zero or the sign. -/
theorem low_shiftedOut (h : t.IsScalar) (op : BinOp) (x : UInt64) {y : BitVec t.bits}
    (hop : op.isShift = true) (hy : t.bits ≤ y.toNat % shiftModulus t.bits) :
    t.low (shiftedOut op t x) = op.onBits (t.low x) y := by
  have hle := h.bits_le
  unfold shiftedOut
  cases op with
  | sll => simp [onBits, low_zero, shiftLeft_eq_zero hy]
  | srl => simp [onBits, low_zero, ushiftRight_eq_zero hy]
  | sra =>
    simp only [onBits, true_and, signed_neg_iff h]
    apply eq_of_getLsbD_eq
    intro i hi
    have hout : ¬ y.toNat % shiftModulus t.bits + i < t.bits := by omega
    have hin : ¬ t.bits ≤ i := by omega
    rw [getLsbD_sshiftRight]
    split_ifs with hneg
    · rw [low_mask hle]
      simp [hi, hin, hneg]
    · rw [low_zero]
      simp [hneg]
  | _ => simp [isShift] at hop

theorem low_shift (h : t.IsScalar) (op : BinOp) (hx : t.Fits x) (hy : t.Fits y)
    (hop : op.isShift = true) : t.low (shift op t x y) = op.onBits (t.low x) (t.low y) := by
  have hle := h.bits_le
  have hcount : (y &&& t.shiftMask).toNat = (t.low y).toNat % shiftModulus t.bits := by
    rw [toNat_shiftCount, toNat_low, Nat.mod_eq_of_lt ((fits_iff_lt hle y).mp hy)]
  have hlt : (y &&& t.shiftMask).toNat < 64 := by
    rw [toNat_shiftCount]
    exact (Nat.mod_lt _ (shiftModulus_pos _)).trans_le (shiftModulus_le _)
  simp only [shift]
  split_ifs with hout
  · exact low_shiftedOut h op x hop (hcount ▸ hout)
  · cases op with
    | sll => simp only [low_shiftLeft hle hlt, onBits, hcount]
    | srl => simp only [low_shiftRight hle hx hlt, onBits, hcount]
    | sra => simp only [low_signedShiftRight h hlt, onBits, hcount]
    | _ => simp [isShift] at hop

theorem low_udiv (hle : t.bits ≤ 64) (hx : t.Fits x) (hy : t.Fits y) :
    t.low (udiv t x y) = BinOp.udiv.onBits (t.low x) (t.low y) := by
  simp only [udiv, onBits, hy.low_eq_zero_iff hle]
  split_ifs with h0
  · exact low_mask hle
  · have hxlt := (fits_iff_lt hle x).mp hx
    have hylt := (fits_iff_lt hle y).mp hy
    rw [← toNat_inj, toNat_low, toNat_udiv, toNat_low, toNat_low,
      UInt64.toNat_div, Nat.mod_eq_of_lt hxlt, Nat.mod_eq_of_lt hylt]
    exact Nat.mod_eq_of_lt ((Nat.div_le_self _ _).trans_lt hxlt)

theorem low_urem (hle : t.bits ≤ 64) (hx : t.Fits x) (hy : t.Fits y) :
    t.low (urem x y) = BinOp.urem.onBits (t.low x) (t.low y) := by
  have hxlt := (fits_iff_lt hle x).mp hx
  have hylt := (fits_iff_lt hle y).mp hy
  simp only [urem, onBits]
  rw [← toNat_inj, toNat_umod, toNat_low, toNat_low, toNat_low,
    Nat.mod_eq_of_lt hxlt, Nat.mod_eq_of_lt hylt]
  split_ifs with h0
  · rw [h0, UInt64.toNat_zero, Nat.mod_zero, Nat.mod_eq_of_lt hxlt]
  · rw [UInt64.toNat_mod]
    exact Nat.mod_eq_of_lt ((Nat.mod_le _ _).trans_lt hxlt)

theorem low_binopWide (h : t.IsScalar) (op : BinOp) (hx : t.Fits x) (hy : t.Fits y) :
    t.low (binopWide op t x y) = op.onBits (t.low x) (t.low y) := by
  have hle := h.bits_le
  cases op with
  | add => simp [binopWide, onBits, low, setWidth_add, hle]
  | sub =>
    simp only [binopWide, onBits, low, UInt64.toBitVec_sub, sub_eq_add_neg]
    rw [setWidth_add _ _ hle, setWidth_neg_of_le hle]
  | mul => simp [binopWide, onBits, low, setWidth_mul, hle]
  | udiv => exact low_udiv hle hx hy
  | sdiv => exact low_sdiv h hx hy
  | urem => exact low_urem hle hx hy
  | srem => exact low_srem h x y
  | sll => exact low_shift h .sll hx hy rfl
  | srl => exact low_shift h .srl hx hy rfl
  | sra => exact low_shift h .sra hx hy rfl
  | and => simp [binopWide, onBits, low, setWidth_and]
  | or => simp [binopWide, onBits, low, setWidth_or]
  | xor => simp [binopWide, onBits, low, setWidth_xor]

/-- Every operator is the operation on the low bits of its operands. -/
theorem low_binop (h : t.IsScalar) (op : BinOp) (x y : UInt64) :
    t.low (binop op t x y) = op.onBits (t.low x) (t.low y) := by
  have hle := h.bits_le
  rw [binop, low_and_mask hle, low_binopWide h op (t.fits_and_mask x) (t.fits_and_mask y),
    low_and_mask hle, low_and_mask hle]

theorem fits_binop (op : BinOp) (t : Ty) (x y : UInt64) : t.Fits (binop op t x y) :=
  t.fits_and_mask _

theorem cmp_eq_onBits (h : t.IsScalar) (op : CmpOp) (x y : UInt64) :
    cmp op t x y = op.onBits (t.low x) (t.low y) := by
  have hle := h.bits_le
  have heq : (x &&& t.mask == y &&& t.mask) = (t.low x == t.low y) := by
    rw [Bool.eq_iff_iff, beq_iff_eq, beq_iff_eq, low_eq_iff hle]
  have hlt : ∀ a b : UInt64, decide (a &&& t.mask < b &&& t.mask) = (t.low a).ult (t.low b) := by
    intro a b
    simp only [BitVec.ult, UInt64.lt_iff_toNat_lt, toNat_and_mask hle, toNat_low]
  have hules : ∀ a b : UInt64, decide (a &&& t.mask ≤ b &&& t.mask) = (t.low a).ule (t.low b) := by
    intro a b
    simp only [BitVec.ule, UInt64.le_iff_toNat_le, toNat_and_mask hle, toNat_low]
  have hslt : ∀ a b : UInt64, decide (signed t (a &&& t.mask) < signed t (b &&& t.mask)) =
      (t.low a).slt (t.low b) := by
    intro a b
    simp only [BitVec.slt, signed_and_mask h, Int64.lt_iff_toInt_lt, signed_toInt h]
  have hsle : ∀ a b : UInt64, decide (signed t (a &&& t.mask) ≤ signed t (b &&& t.mask)) =
      (t.low a).sle (t.low b) := by
    intro a b
    simp only [BitVec.sle, signed_and_mask h, Int64.le_iff_toInt_le, signed_toInt h]
  cases op <;> simp only [cmp, CmpOp.onBits, bne, heq, hlt, hules, hslt, hsle]

theorem low_cvt {u : Ty} (ht : t.IsScalar) (hu : u.IsScalar) (op : CvtOp) (x : UInt64) :
    u.low (cvt op t u x) = op.onBits u.bits (t.low x) := by
  have htle := ht.bits_le
  have hule := hu.bits_le
  have hcut : u.low (x &&& t.mask) = (t.low x).setWidth u.bits := by
    rw [← toNat_inj, toNat_low, toNat_and_mask htle, toNat_setWidth,
      toNat_low]
  cases op with
  | sext =>
    simp only [cvt, CvtOp.onBits]
    rw [low_and_mask hule, low_toUInt64, signed_and_mask ht, signed_toBitVec ht]
    apply eq_of_getLsbD_eq
    intro i hi
    have h64 : i < 64 := by omega
    rw [getLsbD_setWidth, getLsbD_signExtend, getLsbD_signExtend]
    simp only [hi, h64, decide_true, Bool.true_and]
  | trunc | zext =>
    simp only [cvt, CvtOp.onBits]
    rw [low_and_mask hule, hcut]

theorem fits_cvt (op : CvtOp) (t u : Ty) (x : UInt64) : u.Fits (cvt op t u x) := by
  cases op <;> exact u.fits_and_mask _

theorem low_not (hle : t.bits ≤ 64) (x : UInt64) : t.low (~~~x) = ~~~t.low x := by
  simp [low, setWidth_not, hle]

theorem fits_ofBool (b : Bool) : i1.Fits (ofBool b) := by
  cases b <;> decide

end Eval

end Dynarec
