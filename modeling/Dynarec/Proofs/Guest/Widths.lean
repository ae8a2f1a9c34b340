import Dynarec.Proofs.Guest.Narrow
import Dynarec.Proofs.Guest.Simulation

/-!
# Regions at 32 and at 64 bits

The same code stands at an address of 32 bits and at its sign extension. If it lies in one half of
the address space, a path at one width and a path at the other go side by side.
-/
namespace Dynarec

open Ty

variable {code : List UInt8} {c c' : CodeWindow} {x y addr : UInt64} {slot : Mnemonic × Word}
  {μ : Type} {space space' : Workspace} {map : AddressMap}

/-- Both runs exit, or both fail for the same reason, each at an instruction of its own graph. -/
inductive Outcome.Alike : Outcome → Outcome → Prop
  | exited : Alike .exited .exited
  | failed {i i' cause} : Alike (.failed (.at i cause)) (.failed (.at i' cause))

namespace Guest

open Encoding Region Register Lifter

namespace Word

variable (w : Word)

theorem toNat_target : w.target.toNat < 2 ^ 28 := by
  have hand : w.bits.toNat &&& 67108863 = w.bits.toNat % 67108864 :=
    Nat.and_two_pow_sub_one_eq_mod w.bits.toNat 26
  simp [target, hand, Nat.shiftLeft_eq]
  omega

/-- A branch goes no farther than 128 KiB. -/
theorem toNat_branchOffset :
    w.branchOffset.toNat < 2 ^ 17 ∨ 2 ^ 64 - 2 ^ 17 ≤ w.branchOffset.toNat := by
  have hlow : w.branchOffset.toBitVec = (Encoding.imm w.code).signExtend 64 <<< 2 := by
    exact w.low_branchOffset (t := i64) (by decide)
  rw [← UInt64.toNat_toBitVec, hlow, BitVec.toNat_shiftLeft, BitVec.toNat_signExtend,
    BitVec.toNat_setWidth, Nat.shiftLeft_eq, BitVec.msb_eq_decide]
  simp only [decide_eq_true_eq]
  split_ifs <;> omega

end Word

theorem toNat_region (v t : UInt64) (ht : t.toNat < 2 ^ 28) :
    (v &&& ~~~0x0fffffff ||| t).toNat = v.toNat / 2 ^ 28 * 2 ^ 28 + t.toNat := by
  have hmask : (0x0fffffff : UInt64).toBitVec = (BitVec.allOnes 28).setWidth 64 := rfl
  have hregion : (v &&& ~~~0x0fffffff).toBitVec = v.toBitVec >>> 28 <<< 28 := by
    rw [UInt64.toBitVec_and, UInt64.toBitVec_not, hmask]
    apply BitVec.eq_of_getLsbD_eq
    intro i hi
    rw [BitVec.getLsbD_and, BitVec.getLsbD_not, BitVec.getLsbD_setWidth, BitVec.getLsbD_allOnes,
      BitVec.getLsbD_shiftLeft, BitVec.getLsbD_ushiftRight]
    by_cases hlt : i < 28
    · simp only [hi, hlt, decide_true, Bool.and_true, Bool.not_true, Bool.and_false, Bool.false_and]
    · simp only [hi, hlt, decide_true, decide_false, Bool.and_false, Bool.not_false, Bool.and_true,
        Bool.true_and, Nat.add_sub_of_le (Nat.not_lt.mp hlt)]
  have hnat : (v &&& ~~~0x0fffffff).toNat = (v.toNat / 2 ^ 28) <<< 28 := by
    have hlt := v.toNat_lt
    rw [← UInt64.toNat_toBitVec, hregion, BitVec.toNat_shiftLeft, BitVec.toNat_ushiftRight,
      Nat.shiftRight_eq_div_pow, UInt64.toNat_toBitVec, Nat.shiftLeft_eq,
      Nat.mod_eq_of_lt (by omega)]
  rw [UInt64.toNat_or, hnat, ← Nat.shiftLeft_add_eq_or_of_lt ht, Nat.shiftLeft_eq]

theorem offset_sub {s m : Nat} (hs : s < 2 ^ 64) :
    (2 ^ 64 - s + (s + m) % 2 ^ 64) % 2 ^ 64 = m % 2 ^ 64 := by
  rw [Nat.add_mod_mod, ← Nat.add_assoc, Nat.sub_add_cancel hs.le, Nat.add_mod_left]

/-- A branch that goes around the addresses of 32 bits does not come back to the code. -/
theorem offset_cut {s k o size : Nat} (hk : k + 4 ≤ size)
    (hs : s + size < 2 ^ 31 ∨ 2 ^ 31 ≤ s ∧ s + size < 2 ^ 32)
    (ho : o < 2 ^ 17 ∨ 2 ^ 64 - 2 ^ 17 ≤ o ∧ o < 2 ^ 64)
    (h : (2 ^ 64 - s + (s + (k + 4 + o)) % 2 ^ 32) % 2 ^ 64 < size ∨ (k + 4 + o) % 2 ^ 64 < size) :
    (k + 4 + o) % 2 ^ 64 = (2 ^ 64 - s + (s + (k + 4 + o)) % 2 ^ 32) % 2 ^ 64 := by
  rcases ho with ho | ⟨hfar, ho⟩
  · have hsmall : (k + 4 + o) % 2 ^ 64 = k + 4 + o := Nat.mod_eq_of_lt (by omega)
    rw [hsmall] at h ⊢
    omega
  · omega

namespace CodeWindow

/-- Code in a window of 32 bits, and in one of 64 bits that starts at the sign extension of its
address. The code and the address behind it lie in one half of the addresses of 32 bits. -/
structure Widens (c c' : CodeWindow) : Prop where
  width : c.width = i32
  width' : c'.width = i64
  code : c'.code = c.code
  start : c'.start.toNat = c.start.toNat ∧ c.start.toNat + c.code.size < 2 ^ 31 ∨
    c'.start.toNat = c.start.toNat + (2 ^ 64 - 2 ^ 32) ∧ 2 ^ 31 ≤ c.start.toNat ∧
      c.start.toNat + c.code.size < 2 ^ 32

/-- Addresses with the same low word. If one of them lies in the code then so does the other, at the same
offset. -/
structure Beside (c c' : CodeWindow) (x y : UInt64) : Prop where
  fits : x.toNat < 2 ^ 32
  low : y.toNat % 2 ^ 32 = x.toNat
  offset : (x - c.start).toNat < c.code.size ∨ (y - c'.start).toNat < c.code.size →
    (y - c'.start).toNat = (x - c.start).toNat

/-- The addresses of an instruction of the code. -/
def Within (c c' : CodeWindow) (x y : UInt64) : Prop :=
  ∃ k, k + 4 ≤ c.code.size ∧ x.toNat = c.start.toNat + k ∧ y.toNat = c'.start.toNat + k

namespace Widens

variable (h : c.Widens c')
include h

theorem toNat_cut (a : UInt64) : (c.cut a).toNat = a.toNat % 2 ^ 32 := by
  rw [cut, h.width, UInt64.toNat_and, show i32.mask.toNat = 2 ^ 32 - 1 from rfl,
    Nat.and_two_pow_sub_one_eq_mod]

theorem cut_eq_self (a : UInt64) : c'.cut a = a := by
  rw [cut, h.width']
  exact UInt64.and_neg_one

theorem beside_of_offset {k : Nat} (hk : k ≤ c.code.size) (hx : x.toNat = c.start.toNat + k)
    (hy : y.toNat = c'.start.toNat + k) : c.Beside c' x y := by
  have hstart := h.start
  have hsub : (x - c.start).toNat = k := by
    rw [UInt64.toNat_sub]
    omega
  have hsub' : (y - c'.start).toNat = k := by
    rw [UInt64.toNat_sub]
    omega
  exact ⟨by omega, by omega, fun _ => by rw [hsub, hsub']⟩

theorem beside_start : c.Beside c' c.start c'.start :=
  h.beside_of_offset (Nat.zero_le _) rfl rfl

theorem fetch? (hxy : c.Beside c' x y) : c'.fetch? y = c.fetch? x := by
  have halign : y &&& 3 = x &&& 3 := by
    apply UInt64.toNat_inj.mp
    have hlow := hxy.low
    rw [UInt64.toNat_and, UInt64.toNat_and, show (3 : UInt64).toNat = 2 ^ 2 - 1 from rfl,
      Nat.and_two_pow_sub_one_eq_mod, Nat.and_two_pow_sub_one_eq_mod]
    omega
  simp only [CodeWindow.fetch?, halign, h.code]
  by_cases hin : (x - c.start).toNat < c.code.size ∨ (y - c'.start).toNat < c.code.size
  · rw [hxy.offset hin]
  · rw [not_or, Nat.not_lt, Nat.not_lt] at hin
    rw [Array.getElem?_eq_none hin.1, Array.getElem?_eq_none hin.2]

theorem within (hxy : c.Beside c' x y) {w : Word} (hw : c.fetch? x = some w) :
    c.Within c' x y := by
  obtain ⟨x₀, x₁, x₂, x₃, rest, -, -, hdrop⟩ := fetch?_eq_some hw
  have hlength := congrArg List.length hdrop
  rw [List.length_drop, Array.length_toList] at hlength
  simp only [List.length_cons] at hlength
  have hstart := h.start
  have hx := x.toNat_lt
  have hy := y.toNat_lt
  have hoffset := hxy.offset (Or.inl (by omega))
  refine ⟨(x - c.start).toNat, by omega, ?_, ?_⟩
  · rw [UInt64.toNat_sub] at hlength ⊢
    omega
  · rw [← hoffset] at hlength ⊢
    rw [UInt64.toNat_sub] at hlength ⊢
    omega

section Within

variable (hxy : c.Within c' x y)
include hxy

theorem beside_slot : c.Beside c' (x + 4) (y + 4) := by
  obtain ⟨k, hk, hx, hy⟩ := hxy
  have hstart := h.start
  refine h.beside_of_offset hk ?_ ?_
  · rw [UInt64.toNat_add, show (4 : UInt64).toNat = 4 from rfl]
    omega
  · rw [UInt64.toNat_add, show (4 : UInt64).toNat = 4 from rfl]
    omega

theorem cut_slot : c.cut (x + 4) = x + 4 := by
  apply UInt64.toNat_inj.mp
  rw [h.toNat_cut, Nat.mod_eq_of_lt (h.beside_slot hxy).fits]

theorem beside_next : c.Beside c' (c.cut (x + 4)) (c'.cut (y + 4)) := by
  rw [h.cut_slot hxy, h.cut_eq_self]
  exact h.beside_slot hxy

theorem beside_branch (w : Word) :
    c.Beside c' (c.cut (x + 4 + w.branchOffset)) (c'.cut (y + 4 + w.branchOffset)) := by
  obtain ⟨k, hk, hx, hy⟩ := hxy
  have hstart := h.start
  have hfar := w.toNat_branchOffset
  have hlt := w.branchOffset.toNat_lt
  have hx' : (c.cut (x + 4 + w.branchOffset)).toNat =
      (c.start.toNat + (k + 4 + w.branchOffset.toNat)) % 2 ^ 32 := by
    rw [h.toNat_cut, UInt64.toNat_add, UInt64.toNat_add, hx, Nat.mod_add_mod,
      Nat.mod_mod_of_dvd _ (by decide), ← Nat.add_assoc, ← Nat.add_assoc]
    rfl
  have hy' : (y + 4 + w.branchOffset).toNat =
      (c'.start.toNat + (k + 4 + w.branchOffset.toNat)) % 2 ^ 64 := by
    rw [UInt64.toNat_add, UInt64.toNat_add, hy, Nat.mod_add_mod, ← Nat.add_assoc, ← Nat.add_assoc]
    rfl
  rw [h.cut_eq_self]
  refine ⟨?_, ?_, ?_⟩
  · rw [hx']
    exact Nat.mod_lt _ (by decide)
  · rcases hstart with ⟨hs, -⟩ | ⟨hs, -⟩ <;> omega
  · rw [UInt64.toNat_sub, UInt64.toNat_sub, hx', hy', offset_sub c'.start.toNat_lt]
    exact offset_cut hk (by omega) (by omega)

theorem beside_jump (w : Word) : c.Beside c' (jumpTarget c w x) (jumpTarget c' w y) := by
  obtain ⟨k, hk, hx, hy⟩ := hxy
  have hstart := h.start
  have htarget := w.toNat_target
  have hx4 : (x + 4).toNat = c.start.toNat + (k + 4) := by
    rw [UInt64.toNat_add, hx, Nat.mod_eq_of_lt] <;> simp <;> omega
  have hy4 : (y + 4).toNat = c'.start.toNat + (k + 4) := by
    rw [UInt64.toNat_add, hy, Nat.mod_eq_of_lt] <;> simp <;> omega
  have hx' : (jumpTarget c w x).toNat =
      (c.start.toNat + (k + 4)) / 2 ^ 28 * 2 ^ 28 + w.target.toNat := by
    rw [jumpTarget, h.toNat_cut, toNat_region _ _ htarget, hx4]
    omega
  have hy' : (jumpTarget c' w y).toNat =
      (c'.start.toNat + (k + 4)) / 2 ^ 28 * 2 ^ 28 + w.target.toNat := by
    rw [jumpTarget, h.cut_eq_self, toNat_region _ _ htarget, hy4]
  refine ⟨?_, ?_, ?_⟩
  · omega
  · rcases hstart with ⟨hs, hhalf⟩ | ⟨hs, hhalf⟩ <;> omega
  · rw [UInt64.toNat_sub, UInt64.toNat_sub, hx', hy']
    rcases hstart with ⟨hs, hhalf⟩ | ⟨hs, hhalf⟩ <;> omega

end Within

theorem behind (hxy : c.Within c' (x + 4) (y + 4)) :
    c.Beside c' (c.cut (x + 8)) (c'.cut (y + 8)) ∧
      y.toBitVec + 8 = wide (x.toBitVec.setWidth 32 + 8) := by
  have hadd (a : UInt64) : a + 8 = a + 4 + 4 := by
    rw [UInt64.add_assoc]
    rfl
  refine ⟨?_, ?_⟩
  · rw [hadd x, hadd y]
    exact h.beside_next hxy
  · obtain ⟨k, hk, hx, hy⟩ := hxy
    have hstart := h.start
    have hx8 : (x + 8).toNat = c.start.toNat + k + 4 := by
      rw [hadd, UInt64.toNat_add, hx, show (4 : UInt64).toNat = 4 from rfl]
      omega
    have hy8 : (y + 8).toNat = c'.start.toNat + k + 4 := by
      rw [hadd, UInt64.toNat_add, hy, show (4 : UInt64).toNat = 4 from rfl]
      omega
    have hword : x.toBitVec.setWidth 32 + 8 = (x + 8).toBitVec.setWidth 32 := by
      rw [UInt64.toBitVec_add, BitVec.setWidth_add _ _ (by decide)]
      rfl
    have hsum : (y.toBitVec + 8).toNat = c'.start.toNat + k + 4 := hy8
    apply BitVec.eq_of_toNat_eq
    rw [hword, toNat_wide, BitVec.toNat_setWidth, hsum, UInt64.toNat_toBitVec, hx8]
    split_ifs <;> omega

end Widens

end CodeWindow

/-- A block in a plan at 32 bits and in one at 64 bits: the code goes on at addresses beside each other,
behind the same delay slot. -/
structure Side.Beside (l l' : Lifter) (c c' : CodeWindow) (s s' : Side) : Prop where
  addr : c.Beside c' s.addr s'.addr
  slot : s'.delay.bind (decode? l' c') = s.delay.bind (decode? l c)

/-- Code without instructions for 64 bits alone, lifted at 32 bits and at 64 bits with the same
budget. -/
structure Lifter.Widens (l l' : Lifter) (c c' : CodeWindow) : Prop extends c.Widens c' where
  exception : l'.exception.isSome = l.exception.isSome
  budget : l'.budget = l.budget
  narrow : ∀ {a : UInt64} {w : Word} {m : Mnemonic}, c.fetch? a = some w → w.decode = some m →
    m.is64 = false

namespace Lifter.Widens

variable {l l' : Lifter} (h : l.Widens l' c c')
include h

theorem decode? (hxy : c.Beside c' x y) : decode? l' c' y = decode? l c x := by
  unfold Region.decode?
  rw [h.toWidens.fetch? hxy]
  cases hfetch : c.fetch? x with
  | none => rfl
  | some w =>
    cases hdecode : w.decode with
    | none => simp [hdecode]
    | some m =>
      have hm := h.narrow hfetch hdecode
      have hsupported : isSupported l' c' m = isSupported l c m := by
        simp only [isSupported, hm, h.exception]
        rfl
      simp only [Option.bind_eq_bind, Option.bind_some, hdecode, hsupported]

theorem narrow_of_decode (hslot : Region.decode? l c x = some slot) : slot.1.is64 = false := by
  obtain ⟨hfetch, hdecode, -⟩ := decode?_eq_some.mp hslot
  exact h.narrow hfetch hdecode

theorem within_of_decode (hxy : c.Beside c' x y) (hslot : Region.decode? l c x = some slot) :
    c.Within c' x y :=
  h.within hxy (decode?_eq_some.mp hslot).1

theorem delaySlot? (hxy : c.Within c' x y) : delaySlot? l' c' y = delaySlot? l c x := by
  unfold Region.delaySlot?
  rw [h.decode? (h.beside_slot hxy)]

theorem move (hxy : c.Beside c' x y) (budget : Nat) :
    Region.move l' c' budget y = Region.move l c budget x := by
  unfold Region.move
  rw [h.decode? hxy]
  cases hslot : Region.decode? l c x with
  | none => rfl
  | some slot => rw [h.delaySlot? (h.within_of_decode hxy hslot)]

theorem transfer (hxy : c.Beside c' x y) {first : Mnemonic × Word}
    (hfirst : Region.decode? l c x = some first) (hdecode : Region.decode? l c (x + 4) = some slot) :
    c.Within c' x y ∧ c.Within c' (x + 4) (y + 4) ∧ slot.1.is64 = false := by
  have hwithin := h.within_of_decode hxy hfirst
  exact ⟨hwithin, h.within_of_decode (h.beside_slot hwithin) hdecode, h.narrow_of_decode hdecode⟩

theorem abreast (hxy : c.Beside c' x y) (budget : Nat) :
    Abreast (x, Region.move l c budget x) (y, Region.move l' c' budget y) := by
  refine ⟨h.move hxy budget, ?_, ?_⟩
  · apply BitVec.eq_of_toNat_eq
    have hfits := hxy.fits
    rw [Encoding.low, Encoding.low, BitVec.toNat_setWidth, BitVec.toNat_setWidth,
      UInt64.toNat_toBitVec, UInt64.toNat_toBitVec, hxy.low, Nat.mod_eq_of_lt hfits]
  · have hfrom := move_from l c budget x
    dsimp only
    generalize Region.move l c budget x = move at hfrom ⊢
    cases hfrom with
    | stop | exceptionReturn | exception => trivial
    | plain hdecode => exact h.narrow_of_decode hdecode
    | jump hfirst _ hslot | jumpRegister hfirst _ hslot | branch hfirst _ hslot =>
      obtain ⟨-, hbehind, hnarrow⟩ := h.transfer hxy hfirst hslot
      exact ⟨hnarrow, (h.behind hbehind).2⟩

/-- A path goes on at addresses beside each other, and so do the blocks that it opens. -/
theorem onward (hxy : c.Beside c' x y) (budget : Nat) :
    Option.Rel (c.Beside c') ((Region.move l c budget x).next c x)
        ((Region.move l c budget x).next c' y) ∧
      List.Forall₂ (Side.Beside l l' c c') ((Region.move l c budget x).sides c x)
        ((Region.move l c budget x).sides c' y) := by
  have hfrom := move_from l c budget x
  generalize Region.move l c budget x = move at hfrom ⊢
  cases hfrom with
  | stop | exceptionReturn | exception | jumpRegister => exact ⟨.none, .nil⟩
  | plain hdecode => exact ⟨.some (h.beside_next (h.within_of_decode hxy hdecode)), .nil⟩
  | @jump _ w _ _ hfirst => exact ⟨.some (h.beside_jump (h.within_of_decode hxy hfirst) w), .nil⟩
  | @branch _ w _ likely _ _ hfirst _ hslot =>
    obtain ⟨hwithin, hbehind, -⟩ := h.transfer hxy hfirst hslot
    refine ⟨.none, .cons ⟨h.beside_branch hwithin w, ?_⟩ (.cons ⟨(h.behind hbehind).1, rfl⟩ .nil)⟩
    cases likely with
    | false => rfl
    | true => exact h.decode? (h.beside_slot hwithin)

/-- Paths from addresses beside each other make the same moves. -/
theorem path (hxy : c.Beside c' x y) (budget : Nat) :
    List.Forall₂ Abreast (Region.path l c budget x) (Region.path l' c' budget y) ∧
      List.Forall₂ (Side.Beside l l' c c') ((Region.path l c budget x).sides c)
        ((Region.path l' c' budget y).sides c') := by
  induction budget using Nat.strong_induction_on generalizing x y with
  | _ budget ih =>
    have habreast := h.abreast hxy budget
    obtain ⟨hnext, hsides⟩ := h.onward hxy budget
    rw [path_eq l, path_eq l', Path.sides_cons, Path.sides_cons, h.move hxy budget]
    rw [h.move hxy budget] at habreast
    generalize ha : (Region.move l c budget x).next c x = a,
      (Region.move l c budget x).next c' y = b at hnext
    cases hnext with
    | none => exact ⟨.cons habreast .nil, by simpa using hsides⟩
    | some hab =>
      have hpos := Move.cost_pos ha
      have hle := move_cost_le l c budget x
      obtain ⟨hpath, hrest⟩ := ih (budget - (Region.move l c budget x).cost) (by omega) hab
      exact ⟨.cons habreast hpath, List.rel_append hsides hrest⟩

/-- The plans of a region have the same blocks. -/
theorem plan (steps budget : Nat) {sides sides' : List Side}
    (hsides : List.Forall₂ (Side.Beside l l' c c') sides sides') :
    List.Forall₂ Leg.Abreast (plan l c steps budget sides)
      (plan l' c' steps budget sides') := by
  induction steps generalizing budget sides sides' with
  | zero => exact .nil
  | succ steps ih =>
    cases hsides with
    | nil => exact .nil
    | @cons s s' rest rest' hs hrest =>
      obtain ⟨hpath, hopened⟩ := h.path hs.addr budget
      refine .cons ⟨hs.slot, ?_, hpath⟩ ?_
      · intro slot hslot
        obtain ⟨a, -, hdecode⟩ := Option.bind_eq_some_iff.mp hslot
        exact h.narrow_of_decode hdecode
      · rw [cost_of_abreast hpath]
        exact ih _ (List.rel_append hopened hrest)

/-- What a region does at 64 bits beside what it does at 32 bits. -/
theorem journey {B : Board 32 μ} {C : Board 64 μ} (hB : B.Widens C) {P : Prop} {d : Core 32 μ}
    {e : Core 64 μ} (hde : d.Widens P e) : (l.journey c B d).Widens P (l'.journey c' C e) := by
  unfold Lifter.journey
  rw [h.budget]
  exact widens_tour hB (h.plan _ _ (.cons ⟨h.beside_start, rfl⟩ .nil)) (.waits 0 hde)

theorem liftable_iff (budget : Nat) :
    Liftable l' c' budget c'.start ↔ Liftable l c budget c.start := by
  rw [← not_iff_not, ← move_eq_stop_iff, ← move_eq_stop_iff, h.move h.beside_start]

end Lifter.Widens

def Word.ofCode : List UInt8 → List Word
  | x₀ :: x₁ :: x₂ :: x₃ :: rest => ofBytes x₀ x₁ x₂ x₃ :: ofCode rest
  | _ => []

theorem Word.mem_ofCode {k : Nat} {rest : List UInt8} {x₀ x₁ x₂ x₃ : UInt8}
    (h : code.drop (4 * k) = x₀ :: x₁ :: x₂ :: x₃ :: rest) : ofBytes x₀ x₁ x₂ x₃ ∈ ofCode code := by
  induction k generalizing code with
  | zero =>
    obtain rfl : code = x₀ :: x₁ :: x₂ :: x₃ :: rest := h
    exact List.mem_cons_self
  | succ k ih =>
    match code with
    | [] | [_] | [_, _] | [_, _, _] => simp [Nat.mul_succ] at h
    | a :: b :: c :: d :: tail => exact List.mem_cons_of_mem _ (ih h)

/-- A guest that is bound at a width: its registers, the world that its graphs run in, and what
answers its accesses and its exceptions there. -/
structure Bench {μ : Type} (bus : Bus μ) (t : Ty) where
  σ : Type
  world : World σ
  cells : σ → Cells
  memory : σ → μ
  joins : world.Joins cells memory bus
  state : State
  fresh : Workspace
  space : Workspace
  made : fresh.Made
  bound : state.bind fresh t = .ok space
  handler : Option Func
  raises : ∀ f, handler = some f →
    ∃ impl, world.call f = some impl ∧ state.RaisedBy cells memory impl

namespace Bench

variable {bus : Bus μ} {t : Ty} (S : Bench bus t)

def view (s : S.σ) (id : Nat) : BitVec t.bits :=
  S.state.view t (S.cells s) id

def lifter (map : AddressMap) (maxInstructions : Int) : Lifter :=
  ⟨map, maxInstructions, S.handler⟩

def lift (map : AddressMap) (maxInstructions : Int) (used : Arenas) (addr : UInt64)
    (code : List UInt8) : Except LiftError Graph :=
  ((S.lifter map maxInstructions).lift { S.space with used } addr code).1

def run (used : Arenas) (g : Graph) (s : S.σ) : Outcome × S.σ :=
  g.run S.world { S.space with used } s

/-- The accesses to memory that a run makes. -/
def accesses (used : Arenas) (g : Graph) (s : S.σ) : List RunEvent :=
  (g.run S.world.traced { S.space with used } (s, [])).2.2.filter RunEvent.isAccess

theorem isBound (used : Arenas) : S.state.Bound t { S.space with used } :=
  have h := (State.bind_eq_ok S.bound).1
  ⟨h.width, h.zero, h.binding, h.cell⟩

theorem lift_isOk_iff {maxInstructions : Int} {used : Arenas}
    (hroom : ∀ e, S.lift map maxInstructions used addr code = .error e →
      e.report.fault ≠ some .capacityExceeded) :
    (S.lift map maxInstructions used addr code).isOk = true ↔
      Liftable (S.lifter map maxInstructions) (window { S.space with used } addr code)
        (S.lifter map maxInstructions).budget
        (window { S.space with used } addr code).start := by
  cases hlift : S.lift map maxInstructions used addr code with
  | ok g => exact iff_of_true rfl (liftable_of_lift _ _ addr code hlift)
  | error e =>
    refine iff_of_false Bool.false_ne_true ?_
    rcases lift_error _ addr code (S.isBound used) hlift with ⟨hfull, -⟩ | ⟨-, hcount⟩
    · exact absurd hfull (hroom e hlift)
    · exact ((filled_count_eq_zero_iff _ _ addr code (S.isBound used)).mp hcount).2

/-- A run does what the plan of its region does, with the accesses that it makes. -/
theorem describes {maxInstructions : Int} {used : Arenas}
    (hcode : (t.low addr).toNat + code.length ≤ 2 ^ t.bits) {g : Graph}
    (hg : S.lift map maxInstructions used addr code = .ok g) (used' : Arenas) (s : S.σ) :
    ((S.lifter map maxInstructions).journey (window { S.space with used } addr code)
      (⟨t.low addr, code, bus.traced, map⟩ : Board t.bits (μ × List RunEvent))
      ⟨S.view s, (S.memory s, [])⟩).Describes S.state (fun p => S.cells p.1)
        (World.accessed S.memory) (S.view s 0)
        (g.run S.world.traced { S.space with used := used' } (s, [])) := by
  refine run_journey _ S.made S.bound used used' addr code hcode S.joins.traced ?_ hg (s, [])
  intro f hf
  obtain ⟨impl, hcall, himpl⟩ := S.raises f hf
  exact raisedBy_traced hcall himpl

theorem run_eq (used : Arenas) (g : Graph) (s : S.σ) :
    S.run used g s = ((g.run S.world.traced { S.space with used } (s, [])).1,
      (g.run S.world.traced { S.space with used } (s, [])).2.1) :=
  (g.run_traced S.world { S.space with used } s []).symm

end Bench

section Final

variable {σ σ' : Type} {st st' : State} {cells : σ → Cells} {cells' : σ' → Cells} {memory : σ → μ}
  {memory' : σ' → μ} {zero : BitVec Ty.i32.bits} {zero' : BitVec Ty.i64.bits} {r : Outcome × σ}
  {r' : Outcome × σ'}

/-- Where two regions land, their runs leave registers and memories that agree. -/
theorem Landing.Widens.agree {P : Prop} {L : Landing 32 μ} {L' : Landing 64 μ}
    (h : L.Widens P L') (hL : Describes (t := i32) st cells memory zero r L)
    (hL' : Describes (t := i64) st' cells' memory' zero' r' L') (hzero : zero' = wide zero) :
    r.1.Alike r'.1 ∧ memory' r'.2 = memory r.2 ∧
      (∀ id ≤ lo,
        st'.view i64 (cells' r'.2) id = wide (st.view i32 (cells r.2) id)) ∧
      ∀ id < count, lo < id → (id = pc → r.1 = .exited ∨ P) →
        low (st'.view i64 (cells' r'.2) id) = st.view i32 (cells r.2) id := by
  have hcount {id : Nat} (hid : id ≤ lo) : id < count ∧ id ≠ pc := by
    unfold lo at hid
    exact ⟨by unfold count; omega, by unfold pc; omega⟩
  cases h with
  | ended h =>
    obtain ⟨hout, -, hpc, hreg, hz, hmemory⟩ := hL
    obtain ⟨hout', -, hpc', hreg', hz', hmemory'⟩ := hL'
    refine ⟨?_, ?_, fun id hid => ?_, fun id hid hlo hP => ?_⟩
    · rw [hout, hout']
      exact .exited
    · exact hmemory'.trans (h.core.memory.trans hmemory.symm)
    · by_cases hne : id = 0
      · subst hne
        exact hz'.trans (hzero.trans (congrArg wide hz.symm))
      · obtain ⟨hlt, hpc⟩ := hcount hid
        exact (hreg' id hlt hne hpc).trans
          ((h.core.general hid hne).trans (congrArg wide (hreg id hlt hne hpc).symm))
    · have hne : id ≠ 0 := by omega
      by_cases hidpc : id = pc
      · subst hidpc
        exact (congrArg low hpc').trans (h.pc.trans hpc.symm)
      · exact (congrArg low (hreg' id hid hne hidpc)).trans
          ((h.core.low hid hlo fun heq => absurd heq hidpc).trans (hreg id hid hne hidpc).symm)
  | refused h =>
    obtain ⟨⟨i, hout⟩, hreg, hz, hmemory⟩ := hL
    obtain ⟨⟨i', hout'⟩, hreg', hz', hmemory'⟩ := hL'
    refine ⟨?_, ?_, fun id hid => ?_, fun id hid hlo hP => ?_⟩
    · rw [hout, hout']
      exact .failed
    · exact hmemory'.trans (h.memory.trans hmemory.symm)
    · by_cases hne : id = 0
      · subst hne
        exact hz'.trans (hzero.trans (congrArg wide hz.symm))
      · obtain ⟨hlt, -⟩ := hcount hid
        exact (hreg' id hlt hne).trans
          ((h.general hid hne).trans (congrArg wide (hreg id hlt hne).symm))
    · have hne : id ≠ 0 := by omega
      refine (congrArg low (hreg' id hid hne)).trans
        ((h.low hid hlo fun heq => ?_).trans (hreg id hid hne).symm)
      exact (hP heq).resolve_left fun hexit => by rw [hout] at hexit; cases hexit
  | waits k h => exact hL.elim

end Final

theorem toNat_mod_four_of_liftable {l : Lifter} {budget : Nat} (h : Liftable l c budget x) :
    x.toNat % 4 = 0 := by
  obtain ⟨m, w, hdecode, -⟩ := h
  obtain ⟨-, -, -, -, -, halign, -⟩ := CodeWindow.fetch?_eq_some (decode?_eq_some.mp hdecode).1
  exact halign

section Windows

variable (hone : (space.binding 1).ty = Ty.i32) (hone' : (space'.binding 1).ty = Ty.i64)
  {a : BitVec 32}

include hone in
theorem toNat_window_start (a : BitVec 32) (code : List UInt8) :
    (window space ⟨a.setWidth 64⟩ code).start.toNat = a.toNat := by
  simp only [window, hone]
  rw [UInt64.toNat_and, show i32.mask.toNat = 2 ^ 32 - 1 from rfl, Nat.and_two_pow_sub_one_eq_mod,
    ← UInt64.toNat_toBitVec, BitVec.toNat_setWidth]
  omega

include hone hone' in
theorem window_widens (hhalf : a.toNat + code.length < 2 ^ 31 ∨
      2 ^ 31 ≤ a.toNat ∧ a.toNat + code.length < 2 ^ 32) :
    (window space ⟨a.setWidth 64⟩ code).Widens
      (window space' ⟨a.signExtend 64⟩ code) := by
  have hstart := toNat_window_start hone a code
  have hstart' : (window space' ⟨a.signExtend 64⟩ code).start.toNat =
      (wide a : BitVec 64).toNat := by
    simp only [window, hone']
    exact congrArg UInt64.toNat UInt64.and_neg_one
  have hsize : (window space ⟨a.setWidth 64⟩ code).code.size = code.length :=
    List.size_toArray
  refine ⟨hone, hone', rfl, ?_⟩
  rw [hstart, hstart', hsize, toNat_wide]
  split_ifs <;> omega

include hone in
/-- The words that can be fetched are those of the code if it is aligned. -/
theorem mem_ofCode_of_fetch (halign : a.toNat % 4 = 0) {w : Word}
    (hw : (window space ⟨a.setWidth 64⟩ code).fetch? x = some w) : w ∈ Word.ofCode code := by
  obtain ⟨x₀, x₁, x₂, x₃, rest, hx, rfl, hdrop⟩ := CodeWindow.fetch?_eq_some hw
  have hstart := toNat_window_start hone a code
  have hfour : (x - (window space ⟨a.setWidth 64⟩ code).start).toNat % 4 = 0 := by
    rw [UInt64.toNat_sub, hstart]
    omega
  obtain ⟨k, hk⟩ := Nat.dvd_of_mod_eq_zero hfour
  rw [hk] at hdrop
  exact Word.mem_ofCode hdrop

end Windows

namespace Bench

variable {bus : Bus μ}

/-- A register has the same low word at both widths. -/
def AgreesAt (S : Bench bus i32) (T : Bench bus i64) (s : S.σ) (s' : T.σ) (id : Nat) : Prop :=
  (T.view s' id).setWidth 32 = S.view s id

/-- The memory is the same at both widths. General registers, `hi` and `lo` are sign extensions of
words, and system registers have the same low words. -/
structure Agrees (S : Bench bus i32) (T : Bench bus i64) (s : S.σ) (s' : T.σ) : Prop where
  memory : T.memory s' = S.memory s
  general : ∀ id ≤ lo, T.view s' id = (S.view s id).signExtend 64
  system : ∀ id < count, pc < id → S.AgreesAt T s s' id

namespace Agrees

variable {S : Bench bus Ty.i32} {T : Bench bus Ty.i64} {s : S.σ} {s' : T.σ}

theorem core (h : S.Agrees T s s') (log : List RunEvent) :
    Core.Widens (S.AgreesAt T s s' pc) ⟨S.view s, (S.memory s, log)⟩
      ⟨T.view s', (T.memory s', log)⟩ := by
  refine ⟨by rw [h.memory], fun hid _ => h.general _ hid, fun {id} hid hlo hpc => ?_⟩
  by_cases heq : id = pc
  · subst heq
    exact hpc rfl
  · refine h.system id hid ?_
    unfold lo at hlo
    unfold pc at heq ⊢
    omega

theorem run (h : S.Agrees T s s') (hmask : map.mask.toNat < 2 ^ 32) {maxInstructions : Int}
    {used used' : Arenas} {addr' : UInt64}
    (hwidens : (S.lifter map maxInstructions).Widens (T.lifter map maxInstructions)
      (window { S.space with used } addr code)
      (window { T.space with used := used' } addr' code))
    (hfits : (i32.low addr).toNat + code.length ≤ 2 ^ 32)
    (hfits' : (i64.low addr').toNat + code.length ≤ 2 ^ 64) {g g' : Graph}
    (hg : S.lift map maxInstructions used addr code = .ok g)
    (hg' : T.lift map maxInstructions used' addr' code = .ok g') (later later' : Arenas) :
    (S.run later g s).1.Alike (T.run later' g' s').1 ∧
      T.accesses later' g' s' = S.accesses later g s ∧
      S.Agrees T (S.run later g s).2 (T.run later' g' s').2 ∧
      ∀ id < count,
        (id = pc → (S.run later g s).1 = .exited ∨ S.AgreesAt T s s' pc) →
          S.AgreesAt T (S.run later g s).2 (T.run later' g' s').2 id := by
  have hlanding := hwidens.journey (B := ⟨i32.low addr, code, bus.traced, map⟩)
    (C := ⟨i64.low addr', code, bus.traced, map⟩) ⟨rfl, rfl, hmask⟩ (h.core [])
  obtain ⟨halike, hmemory, hgeneral, hlow⟩ := hlanding.agree (S.describes hfits hg later s)
    (T.describes hfits' hg' later' s') (h.general 0 (Nat.zero_le _))
  rw [S.run_eq, T.run_eq]
  refine ⟨halike, congrArg Prod.snd hmemory, ⟨congrArg Prod.fst hmemory, hgeneral, ?_⟩, ?_⟩
  · intro id hid hpc
    exact hlow id hid (by unfold pc at hpc; unfold lo; omega) fun heq => by omega
  · intro id hid hpc
    by_cases hlo : lo < id
    · exact hlow id hid hlo hpc
    · exact (congrArg low (hgeneral id (Nat.not_lt.mp hlo))).trans (low_wide _)

end Agrees

/-- Code without instructions for 64 bits alone does the same at 32 bits and at 64 bits, where it
starts at the sign extension of its address. -/
theorem run_agrees (S : Bench bus Ty.i32) (T : Bench bus Ty.i64)
    (hhandler : T.handler.isSome = S.handler.isSome) (map : AddressMap)
    (hmask : map.mask.toNat < 2 ^ 32) (maxInstructions : Int) (a : BitVec 32) (code : List UInt8)
    (hhalf : a.toNat + code.length < 2 ^ 31 ∨ 2 ^ 31 ≤ a.toNat ∧ a.toNat + code.length < 2 ^ 32)
    (hcode : ∀ w ∈ Word.ofCode code, ∀ m ∈ w.decode, m.is64 = false) (used used' : Arenas)
    (hroom : ∀ e, S.lift map maxInstructions used ⟨a.setWidth 64⟩ code = .error e →
      e.report.fault ≠ some .capacityExceeded)
    (hroom' : ∀ e, T.lift map maxInstructions used' ⟨a.signExtend 64⟩ code = .error e →
      e.report.fault ≠ some .capacityExceeded) :
    (T.lift map maxInstructions used' ⟨a.signExtend 64⟩ code).isOk =
        (S.lift map maxInstructions used ⟨a.setWidth 64⟩ code).isOk ∧
      ∀ g g', S.lift map maxInstructions used ⟨a.setWidth 64⟩ code = .ok g →
        T.lift map maxInstructions used' ⟨a.signExtend 64⟩ code = .ok g' →
        ∀ (later later' : Arenas) (s : S.σ) (s' : T.σ), S.Agrees T s s' →
          let r := S.run later g s
          let r' := T.run later' g' s'
          r.1.Alike r'.1 ∧ T.accesses later' g' s' = S.accesses later g s ∧
            S.Agrees T r.2 r'.2 ∧
            ∀ id < Register.count,
              (id = Register.pc → r.1 = .exited ∨ S.AgreesAt T s s' Register.pc) →
                S.AgreesAt T r.2 r'.2 id := by
  have hone := (S.isBound used).ty_one
  have hone' := (T.isBound used').ty_one
  have hwindow := window_widens hone hone' hhalf
  have hok := S.lift_isOk_iff hroom
  have hok' := T.lift_isOk_iff hroom'
  by_cases halign : a.toNat % 4 = 0
  · have hwidens : (S.lifter map maxInstructions).Widens (T.lifter map maxInstructions) _ _ :=
      ⟨hwindow, hhandler, rfl, fun hfetch hdecode =>
        hcode _ (mem_ofCode_of_fetch hone halign hfetch) _ hdecode⟩
    refine ⟨?_, fun g g' hg hg' later later' s s' h => ?_⟩
    · rw [Bool.eq_iff_iff, hok, hok']
      exact hwidens.liftable_iff _
    · refine h.run hmask hwidens ?_ ?_ hg hg' later later'
      · have hlow : (Ty.i32.low ⟨a.setWidth 64⟩).toNat = a.toNat := by
          rw [Ty.low, BitVec.setWidth_setWidth_of_le _ (by decide)]
          exact congrArg BitVec.toNat (BitVec.setWidth_eq a)
        omega
      · have hlow : (Ty.i64.low ⟨a.signExtend 64⟩).toNat = (wide a : BitVec 64).toNat :=
          congrArg BitVec.toNat (BitVec.setWidth_eq (wide a))
        rw [hlow, toNat_wide]
        split_ifs <;> omega
  · -- Nothing is fetched at an address that is not aligned.
    have hstart := toNat_window_start hone a code
    have hstart' := hwindow.start
    have hnone : ¬ (S.lift map maxInstructions used ⟨a.setWidth 64⟩ code).isOk = true := by
      rw [hok]
      intro hl
      have := toNat_mod_four_of_liftable hl
      omega
    have hnone' : ¬ (T.lift map maxInstructions used' ⟨a.signExtend 64⟩ code).isOk = true := by
      rw [hok']
      intro hl
      have := toNat_mod_four_of_liftable hl
      omega
    refine ⟨?_, fun g g' hg => ?_⟩
    · rw [Bool.eq_iff_iff]
      exact iff_of_false hnone' hnone
    · exact absurd (by rw [hg]; rfl) hnone

/-- A host whose calls raise exceptions in the registers at 0x1000. -/
def raising {t : Ty} {space : Workspace} (h : State.bind ⟨0x1000⟩ smallSpace t = .ok space) :
    Bench Host.bus t where
  σ := Host
  world := Lifter.raising
  cells := Host.cells
  memory := Host.window
  joins := raising_joins
  state := ⟨0x1000⟩
  fresh := smallSpace
  space := space
  made := smallSpace_made
  bound := h
  handler := some ⟨"exception", 0⟩
  raises := fun f _ => raising_call f

theorem isSome_handler_raising {t : Ty} (h : State.bind ⟨0x1000⟩ smallSpace t = .ok space) :
    (raising h).handler.isSome = true :=
  rfl

theorem view_default (st : State) (t : Ty) (id : Nat) : st.view t (default : Cells) id = 0 := by
  have hbyte (a : UInt64) : (default : Cells).byte a = 0 := Std.HashMap.getD_empty
  have hread : (default : Cells).read (st.cell id) 8 = 0 := by
    simp only [Cells.read, Cells.range, hbyte]
    rfl
  rw [State.view, hread]
  exact BitVec.setWidth_zero _ _

theorem agrees_default (hbind : State.bind ⟨0x1000⟩ smallSpace i32 = .ok space)
    (hbind' : State.bind ⟨0x1000⟩ smallSpace i64 = .ok space') (window : Option Window) :
    (raising hbind).Agrees (raising hbind') { window } { window } := by
  have hview (id : Nat) : (raising hbind).view { window } id = 0 := view_default _ _ id
  have hview' (id : Nat) : (raising hbind').view { window } id = 0 := view_default _ _ id
  refine ⟨rfl, fun id _ => ?_, fun id _ _ => ?_⟩
  · rw [hview, hview']
    rfl
  · unfold AgreesAt
    rw [hview, hview']
    rfl

def boundSpace32 : Workspace :=
  (State.bind ⟨0x1000⟩ smallSpace i32).toOption.getD smallSpace

theorem bind_smallSpace32 : State.bind ⟨0x1000⟩ smallSpace i32 = .ok boundSpace32 :=
  Except.eq_ok_getD (by decide +kernel) smallSpace

theorem lift_store32 : ((raising bind_smallSpace32).lift { mask := 0xff } 6 {}
    ⟨(0x80000400#32).setWidth 64⟩ storeCode).isOk = true := by
  decide +kernel

theorem lift_store64 : ((raising bind_smallSpace).lift { mask := 0xff } 6 {}
    ⟨(0x80000400#32).signExtend 64⟩ storeCode).isOk = true := by
  decide +kernel

theorem run_agrees_store :
    let S := raising bind_smallSpace32
    let T := raising Lifter.bind_smallSpace
    let map : AddressMap := { mask := 0xff }
    let h : Host := { window := some { size := 64, isTracing := true } }
    ∃ g g', S.lift map 6 {} ⟨(0x80000400#32).setWidth 64⟩ Lifter.storeCode = .ok g ∧
      T.lift map 6 {} ⟨(0x80000400#32).signExtend 64⟩ Lifter.storeCode = .ok g' ∧
      S.Agrees T h h ∧ (S.run {} g h).1.Alike (T.run {} g' h).1 ∧
      T.accesses {} g' h = S.accesses {} g h ∧ S.Agrees T (S.run {} g h).2 (T.run {} g' h).2 := by
  have hg := Except.eq_ok_getD lift_store32 Graph.empty
  have hg' := Except.eq_ok_getD lift_store64 Graph.empty
  generalize Option.getD _ Graph.empty = g at hg
  generalize Option.getD _ Graph.empty = g' at hg'
  have hagrees := agrees_default bind_smallSpace32 Lifter.bind_smallSpace
    (some { size := 64, isTracing := true })
  -- The handlers are compared through their values: the two benches have different spaces.
  have hhandler := (isSome_handler_raising Lifter.bind_smallSpace).trans
    (isSome_handler_raising bind_smallSpace32).symm
  obtain ⟨-, hruns⟩ := run_agrees (raising bind_smallSpace32) (raising Lifter.bind_smallSpace)
    hhandler { mask := 0xff } (by decide) 6 0x80000400#32 Lifter.storeCode (by decide) (by decide) {} {}
    (by rw [hg]; rintro e ⟨⟩) (by rw [hg']; rintro e ⟨⟩)
  obtain ⟨halike, haccesses, hends, -⟩ := hruns g g' hg hg' {} {} _ _ hagrees
  exact ⟨g, g', hg, hg', hagrees, halike, haccesses, hends⟩

end Bench

end Guest

end Dynarec
