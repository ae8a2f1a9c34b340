import Dynarec.Proofs.Guest.Plan

/-!
# Plans as steps of the processor

A move is one or two steps of the processor: one for an instruction, two for a transfer and its
delay slot. The delay slot of a likely branch stands in the block of the taken side, so there the
processor waits between the two steps. So a processor in front of a region makes the steps of its
plan: at least one if anything was lifted, and no more than the budget allows.
-/
namespace Dynarec.Guest

open Builder Region Processor List

variable {c : CodeWindow} {a addr : UInt64} {w : Word} {slot : Mnemonic × Word} {n : Nat}
  {sides : List Side} {m : Mnemonic} {link likely : Bool}

namespace CodeWindow

theorem fetch?_eq_some (h : c.fetch? a = some w) :
    ∃ x₀ x₁ x₂ x₃ rest, a.toNat % 4 = 0 ∧ w = Word.ofBytes x₀ x₁ x₂ x₃ ∧
      c.code.toList.drop (a - c.start).toNat = x₀ :: x₁ :: x₂ :: x₃ :: rest := by
  simp only [fetch?] at h
  split_ifs at h with halign
  split at h
  · rename_i x₀ x₁ x₂ x₃ h₀ h₁ h₂ h₃
    refine ⟨x₀, x₁, x₂, x₃, c.code.toList.drop ((a - c.start).toNat + 4), ?_,
      (Option.some.inj h).symm, ?_⟩
    · have hand := congrArg UInt64.toNat (not_not.mp halign)
      rwa [UInt64.toNat_and, show (3 : UInt64).toNat = 2 ^ 2 - 1 from rfl,
        Nat.and_two_pow_sub_one_eq_mod] at hand
    · simp only [← Array.getElem?_toList] at h₀ h₁ h₂ h₃
      rw [drop_eq_getElem?_toList_append, h₀, drop_eq_getElem?_toList_append, h₁,
        drop_eq_getElem?_toList_append, h₂, drop_eq_getElem?_toList_append, h₃]
      rfl
  · cases h

end CodeWindow

theorem Word.shiftLeft_or {x y : Nat} (hy : y < 256) (k : Nat) :
    x <<< (k + 8) ||| y <<< k = (x * 256 + y) <<< k := by
  have hlt : y <<< k < 2 ^ (k + 8) := by
    rw [Nat.shiftLeft_eq, Nat.pow_add, Nat.mul_comm]
    exact Nat.mul_lt_mul_of_pos_left hy (Nat.two_pow_pos k)
  rw [← Nat.shiftLeft_add_eq_or_of_lt hlt, Nat.shiftLeft_eq, Nat.shiftLeft_eq, Nat.shiftLeft_eq]
  ring

theorem Word.code_ofBytes (x₀ x₁ x₂ x₃ : UInt8) : (Word.ofBytes x₀ x₁ x₂ x₃).code =
    .ofNat 32 (((x₀.toNat * 256 + x₁.toNat) * 256 + x₂.toNat) * 256 + x₃.toNat) := by
  have h₀ := x₀.toNat_lt
  have h₁ := x₁.toNat_lt
  have h₂ := x₂.toNat_lt
  have h₃ := x₃.toNat_lt
  apply BitVec.eq_of_toNat_eq
  have hshift {x k : Nat} (hx : x < 2 ^ 8) (hk : k ≤ 24) : x <<< k % 2 ^ 32 = x <<< k := by
    rw [Nat.shiftLeft_eq]
    refine Nat.mod_eq_of_lt ?_
    calc x * 2 ^ k < 2 ^ 8 * 2 ^ k := Nat.mul_lt_mul_of_pos_right hx (Nat.two_pow_pos k)
      _ ≤ 2 ^ 8 * 2 ^ 24 := Nat.mul_le_mul_left _ (Nat.pow_le_pow_right Nat.two_pos hk)
      _ = 2 ^ 32 := by norm_num
  have hbits : (Word.ofBytes x₀ x₁ x₂ x₃).code.toNat =
      x₀.toNat <<< 24 ||| x₁.toNat <<< 16 ||| x₂.toNat <<< 8 ||| x₃.toNat <<< 0 := by
    change (Word.ofBytes x₀ x₁ x₂ x₃).bits.toNat = _
    simp only [Word.ofBytes, UInt32.toNat_or, UInt32.toNat_shiftLeft, UInt8.toNat_toUInt32]
    change x₀.toNat <<< 24 % 2 ^ 32 ||| x₁.toNat <<< 16 % 2 ^ 32 ||| x₂.toNat <<< 8 % 2 ^ 32 ||| _ = _
    rw [hshift h₀ le_rfl, hshift h₁ (by decide), hshift h₂ (by decide), Nat.shiftLeft_zero]
  rw [hbits, shiftLeft_or h₁ 16, shiftLeft_or h₂ 8, shiftLeft_or h₃ 0, Nat.shiftLeft_zero,
    BitVec.toNat_ofNat, Nat.mod_eq_of_lt (by omega)]

section Landings

variable {t : Ty} {μ : Type} {B : Board t.bits μ}

/-- The processor at the head of a block: in the delay slot, or in front of the code. -/
def Side.facing (s : Side) (d : Core t.bits μ) : Processor t.bits μ :=
  match s.delay with
  | none => ⟨d, t.low s.addr, none⟩
  | some a => ⟨d, t.low a, some (t.low s.addr)⟩

/-- The steps that the processor makes at the head of a block before it comes to the code. -/
def Side.ahead (s : Side) : Nat :=
  if s.delay.isSome then 1 else 0

/-- The processor comes from `M` to a landing. It makes at least one step, if `n` is not 0, and at most
`n`, among them the delay slot that a block may start with. -/
def Landing.ReachedFrom (B : Board t.bits μ) (M : Processor t.bits μ) (n : Nat) (sides : List Side) :
    Landing t.bits μ → Prop
  | .ended M' => ∃ k, k ≤ n ∧ (n ≠ 0 → k ≠ 0) ∧ M.steps B k = some M'
  | .refused _ => True
  | .waits i d => ∃ k s, sides[i]? = some s ∧ k + s.ahead ≤ n ∧ (n ≠ 0 → k ≠ 0) ∧
      M.steps B k = some (s.facing d)

namespace Landing.ReachedFrom

variable {M M₁ : Processor t.bits μ} {L : Landing t.bits μ} {j n' : Nat}

theorem after (h : L.ReachedFrom B M₁ n sides) (hsteps : M.steps B j = some M₁) (hj : j ≠ 0)
    (hle : j + n ≤ n') : L.ReachedFrom B M n' sides := by
  cases L with
  | ended M' =>
    obtain ⟨k, hk, -, hM'⟩ := h
    exact ⟨j + k, by omega, fun _ => by omega, steps_add hsteps hM'⟩
  | refused p => trivial
  | waits i d =>
    obtain ⟨k, s, hs, hk, -, hM'⟩ := h
    exact ⟨j + k, s, hs, by omega, fun _ => by omega, steps_add hsteps hM'⟩

theorem mono (h : L.ReachedFrom B M n sides) (hn : n ≠ 0) (hle : n ≤ n') :
    L.ReachedFrom B M n' sides := by
  cases L with
  | ended M' =>
    obtain ⟨k, hk, hpos, hM'⟩ := h
    exact ⟨k, by omega, fun _ => hpos hn, hM'⟩
  | refused p => trivial
  | waits i d =>
    obtain ⟨k, s, hs, hk, hpos, hM'⟩ := h
    exact ⟨k, s, hs, by omega, fun _ => hpos hn, hM'⟩

theorem append (h : L.ReachedFrom B M n sides) (rest : List Side) :
    L.ReachedFrom B M n (sides ++ rest) := by
  cases L with
  | ended M' => exact h
  | refused p => trivial
  | waits i d =>
    obtain ⟨k, s, hs, hk⟩ := h
    exact ⟨k, s, by rw [List.getElem?_append_left (List.getElem?_eq_some_iff.mp hs).1, hs], hk⟩

end Landing.ReachedFrom

/-- What an instruction that is performed leads to, if the bus does not refuse its access. -/
theorem Region.perform_reached {M : Processor t.bits μ} {d : Core t.bits μ}
    {onward : Core t.bits μ → Landing t.bits μ}
    (h : ∀ d', Encoding.exec B slot.1 slot.2.code d = some d' →
      (onward d').ReachedFrom B M n sides) : (perform B slot d onward).ReachedFrom B M n sides := by
  unfold perform
  split
  · rename_i d' hexec
    exact h d' hexec
  · trivial

end Landings

/-- A block that starts with a delay slot starts with one that can stand there. -/
def Side.Fillable (l : Lifter) (c : CodeWindow) (s : Side) : Prop :=
  ∀ a, s.delay = some a → ∃ slot, decode? l c a = some slot ∧ slot.1.control = .none

namespace Region

variable {l : Lifter}

theorem path_cost_le (budget : Nat) (addr : UInt64) : (path l c budget addr).cost ≤ budget := by
  induction budget using Nat.strong_induction_on generalizing addr with
  | _ budget ih =>
    have hle := move_cost_le l c budget addr
    rw [path_eq, Path.cost_cons]
    cases hnext : (move l c budget addr).next c addr with
    | none => exact hle
    | some a =>
      have hpos := Move.cost_pos hnext
      have hrest := ih (budget - (move l c budget addr).cost) (by omega) a
      simp only [Option.elim_some]
      omega

/-- A block that a path opens costs budget, and can be filled. -/
theorem path_sides (budget : Nat) (addr : UInt64) :
    ((path l c budget addr).sides c).length ≤ (path l c budget addr).cost ∧
      ∀ s ∈ (path l c budget addr).sides c, Side.Fillable l c s := by
  induction budget using Nat.strong_induction_on generalizing addr with
  | _ budget ih =>
    have hfrom := move_from l c budget addr
    rw [path_eq, Path.cost_cons, Path.sides_cons]
    generalize move l c budget addr = move at hfrom ⊢
    cases hfrom with
    | stop | exceptionReturn | exception | jumpRegister => simp [Move.sides, Move.next]
    | plain =>
      obtain ⟨hlength, hfill⟩ := ih (budget - 1) (by omega) (c.cut (addr + 4))
      exact ⟨hlength.trans (Nat.le_add_left _ _), hfill⟩
    | @jump _ w =>
      obtain ⟨hlength, hfill⟩ := ih (budget - 2) (by omega) (jumpTarget c w addr)
      exact ⟨hlength.trans (Nat.le_add_left _ _), hfill⟩
    | @branch _ w test likely link slot _ _ hslot hplain =>
      refine ⟨by simp [Move.sides, Move.next, Move.cost], ?_⟩
      simp only [Move.sides, Move.next, Option.elim_none, Path.sides_nil, append_nil,
        mem_cons, not_mem_nil, or_false]
      rintro s (rfl | rfl) a ha
      · cases likely with
        | true =>
          cases ha
          exact ⟨slot, hslot, hplain⟩
        | false => cases ha
      · cases ha

end Region

/-- A board has the code of a window, which does not wrap around the address space, and the address
map of the lifter. -/
structure Board.Holds {t : Ty} {μ : Type} (B : Board t.bits μ) (l : Lifter) (c : CodeWindow) :
    Prop where
  scalar : t = Ty.i32 ∨ t = Ty.i64
  width : c.width = t
  map : l.map = B.map
  start : B.start = t.low c.start
  code : B.code = c.code.toList
  fits : t.Fits c.start
  room : c.start.toNat + c.code.size ≤ 2 ^ t.bits

namespace Board.Holds

variable {t : Ty} {μ : Type} {B : Board t.bits μ} {l : Lifter} (h : B.Holds l c)
include h

theorem bits_le : t.bits ≤ 64 := by
  rcases h.scalar with ht | ht <;> rw [ht] <;> decide

theorem facing_start (d : Core t.bits μ) : facing d c.start = ⟨d, B.start, none⟩ := by
  rw [h.start]
  rfl

theorem low_cut (a : UInt64) : t.low (c.cut a) = t.low a := by
  rw [CodeWindow.cut, h.width, Ty.low_and_mask h.bits_le]

theorem low_slot (a : UInt64) : t.low (a + 4) = t.low a + 4 := by
  rw [Ty.low_add h.bits_le]
  exact congrArg _ (t.low_ofNat (by decide))

theorem low_behind (a : UInt64) : t.low (a + 8) = t.low a + 8 := by
  rw [Ty.low_add h.bits_le]
  exact congrArg _ (t.low_ofNat (by decide))

theorem fetch (hw : c.fetch? a = some w) : B.fetch (t.low a) = some w.code := by
  obtain ⟨x₀, x₁, x₂, x₃, rest, halign, rfl, hdrop⟩ := CodeWindow.fetch?_eq_some hw
  have hlength := congrArg length hdrop
  rw [length_drop, Array.length_toList] at hlength
  simp only [length_cons] at hlength
  have hroom := h.room
  have hbits : 2 ^ t.bits ≤ 2 ^ 64 := Nat.pow_le_pow_right Nat.two_pos h.bits_le
  have ha : a.toNat = c.start.toNat + (a - c.start).toNat := by
    have hsum : a = c.start + (a - c.start) := by
      rw [UInt64.add_comm, UInt64.sub_add_cancel]
    have := congrArg UInt64.toNat hsum
    rw [UInt64.toNat_add, Nat.mod_eq_of_lt (by omega)] at this
    exact this
  have hlow : (t.low a).toNat = a.toNat := by
    rw [Ty.toNat_low, Nat.mod_eq_of_lt (by omega)]
  have hstart : B.start.toNat = c.start.toNat := by
    rw [h.start, Ty.toNat_low, Nat.mod_eq_of_lt ((Ty.fits_iff_lt h.bits_le _).mp h.fits)]
  have hoffset : a.toNat - c.start.toNat = (a - c.start).toNat := by omega
  rw [Board.fetch, hlow, hstart, if_pos ⟨halign, by omega⟩, h.code, hoffset, hdrop,
    Word.code_ofBytes]

section Step

variable {M : Processor t.bits μ} (hslot : decode? l c a = some slot) (hpc : M.pc = t.low a)
include hslot hpc

theorem step_exec {d : Core t.bits μ}
    (hexec : Encoding.exec B slot.1 slot.2.code M.toCore = some d) :
    M.step B = some { d with pc := M.target.getD (M.pc + 4) } := by
  obtain ⟨hfetch, hdecode, hsupported⟩ := decode?_eq_some.mp hslot
  refine Processor.step_exec (hpc ▸ h.fetch hfetch) hdecode (fun h64 => ?_) hexec
  rw [← h.width, isSupported_is64 hsupported h64]
  rfl

theorem step_transfer (hm : slot.1.control ≠ .none) (htarget : M.target = none) :
    M.step B = M.transfer slot.1 slot.2.code := by
  obtain ⟨hfetch, hdecode, hsupported⟩ := decode?_eq_some.mp hslot
  refine Processor.step_transfer (hpc ▸ h.fetch hfetch) hdecode (fun h64 => ?_) hm htarget
  rw [← h.width, isSupported_is64 hsupported h64]
  rfl

end Step

theorem step_slot (hslot : decode? l c (a + 4) = some slot) {d d' : Core t.bits μ}
    (hexec : Encoding.exec B slot.1 slot.2.code d = some d') (target : Option (BitVec t.bits)) :
    step B ⟨d, t.low (a + 4), target⟩ =
      some ⟨d', target.getD (t.low (a + 8)), none⟩ := by
  have hnext : t.low (a + 4) + 4 = t.low (a + 8) := by
    rw [← h.low_slot, UInt64.add_assoc]
    rfl
  rw [h.step_exec (M := ⟨d, t.low (a + 4), target⟩) hslot rfl hexec, hnext]

section Transfers

variable {d : Core t.bits μ} (hdecode : decode? l c addr = some (m, w))
include hdecode

theorem step_branch {test : Test} (hm : m.control = .branch test likely link) :
    (facing d addr).step B = some (if test.onBits (d.get w.rs) (d.get w.rt) then
      ⟨(facing d addr).link link 31, t.low (addr + 4),
        some (t.low (c.cut (addr + 4 + w.branchOffset)))⟩
      else ⟨(facing d addr).link link 31, t.low (if likely then addr + 8 else addr + 4),
        none⟩) := by
  rw [h.step_transfer (M := facing d addr) hdecode rfl (by simp [hm]) rfl,
    transfer_branch hm, h.low_cut, Ty.low_add h.bits_le (addr + 4),
    w.low_branchOffset h.bits_le, h.low_slot]
  cases likely with
  | true =>
    simp only [if_true, h.low_behind]
    rfl
  | false =>
    simp only [Bool.false_eq_true, if_false, h.low_slot]
    rfl

theorem step_jump (hm : m.control = .jump link) :
    (facing d addr).step B = some ⟨(facing d addr).link link 31, t.low (addr + 4),
      some (t.low (jumpTarget c w addr))⟩ := by
  have hlit : t.low 0x0fffffff = 0x0fffffff#t.bits := t.low_ofNat (by decide)
  rw [h.step_transfer (M := facing d addr) hdecode rfl (by simp [hm]) rfl,
    transfer_jump hm, jumpTarget, h.low_cut, Ty.low_or, Ty.low_and,
    Eval.low_not h.bits_le, hlit, w.low_target h.scalar, h.low_slot]
  rfl

theorem step_jumpRegister (hm : m.control = .jumpRegister link) :
    (facing d addr).step B = some ⟨(facing d addr).link link w.rd, t.low (addr + 4),
      some (d.get w.rs)⟩ := by
  rw [h.step_transfer (M := facing d addr) hdecode rfl (by simp [hm]) rfl,
    transfer_jumpRegister hm, h.low_slot]
  rfl

end Transfers

/-- The steps of a branch and, if it is not a likely one, of its delay slot. -/
theorem reached_branch {d : Core t.bits μ} (hdecode : decode? l c addr = some (m, w)) {test : Test}
    (hm : m.control = .branch test likely link) (hdelay : decode? l c (addr + 4) = some slot)
    (rest : Path) :
    (travel B ((addr, .branch w test likely link slot) :: rest) d).ReachedFrom B
      (facing d addr) 2 ((Move.branch w test likely link slot).sides c addr) := by
  have hstep := h.step_branch (d := d) hdecode hm
  rw [travel]
  generalize test.onBits (d.get w.rs) (d.get w.rt) = taken at hstep ⊢
  cases likely with
  | true =>
    refine ⟨1, if taken then ⟨c.cut (addr + 4 + w.branchOffset), some (addr + 4)⟩ else
      ⟨c.cut (addr + 8), none⟩, ?_, ?_, by simp, ?_⟩
    · cases taken <;> rfl
    · cases taken <;> simp [Side.ahead]
    · refine steps_succ hstep ?_
      cases taken with
      | true => rfl
      | false => simp [Side.facing, h.low_cut, steps]
  | false =>
    refine perform_reached fun d' hexec => ⟨2, if taken then
      ⟨c.cut (addr + 4 + w.branchOffset), none⟩ else ⟨c.cut (addr + 8), none⟩, ?_, ?_, by simp, ?_⟩
    · cases taken <;> rfl
    · cases taken <;> simp [Side.ahead]
    · refine steps_succ hstep ?_
      have hslot := h.step_slot hdelay hexec
      cases taken with
      | true => exact steps_succ (hslot _) rfl
      | false =>
        refine steps_succ (hslot _) ?_
        simp [Side.facing, h.low_cut, steps]

/-- A processor in front of a path makes its moves. -/
theorem reached_travel (budget : Nat) (addr : UInt64) (d : Core t.bits μ) :
    (travel B (path l c budget addr) d).ReachedFrom B (facing d addr)
      (path l c budget addr).cost ((path l c budget addr).sides c) := by
  induction budget using Nat.strong_induction_on generalizing addr d with
  | _ budget ih =>
    have hfrom := move_from l c budget addr
    rw [path_eq, Path.cost_cons, Path.sides_cons]
    generalize move l c budget addr = move at hfrom ⊢
    cases hfrom with
    | stop => exact ⟨0, le_rfl, fun hn => absurd rfl hn, rfl⟩
    | plain hdecode =>
      refine perform_reached fun d' hexec => ?_
      have hstep := h.step_exec (M := facing d addr) hdecode rfl hexec
      have hnext : ({ d' with pc := (facing d addr).target.getD ((facing d addr).pc + 4) } :
          Processor t.bits μ) = facing d' (c.cut (addr + 4)) := by
        have hlow : t.low addr + 4 = t.low (c.cut (addr + 4)) := by rw [h.low_cut, h.low_slot]
        exact congrArg (fun pc => (⟨d', pc, none⟩ : Processor t.bits μ)) hlow
      rw [hnext] at hstep
      exact (ih (budget - 1) (by omega) (c.cut (addr + 4)) d').after
        (steps_succ hstep rfl) one_ne_zero le_rfl
    | exceptionReturn hdecode hm =>
      have hstep := h.step_transfer (M := facing d addr) hdecode rfl (by simp [hm]) rfl
      rw [transfer_exceptionReturn hm] at hstep
      exact ⟨1, le_rfl, fun _ => one_ne_zero, steps_succ hstep rfl⟩
    | exception hdecode hm =>
      have hstep := h.step_transfer (M := facing d addr) hdecode rfl (by simp [hm]) rfl
      rw [transfer_exception hm] at hstep
      exact ⟨1, le_rfl, fun _ => one_ne_zero, steps_succ hstep rfl⟩
    | @jump _ w _ _ hdecode hm hdelay =>
      refine perform_reached fun d' hexec => ?_
      have hsteps : (facing d addr).steps B 2 = some (facing d' (jumpTarget c w addr)) :=
        steps_succ (h.step_jump hdecode hm)
          (steps_succ (h.step_slot hdelay hexec _) rfl)
      exact (ih (budget - 2) (by omega) (jumpTarget c w addr) d').after hsteps two_ne_zero le_rfl
    | jumpRegister hdecode hm hdelay =>
      refine perform_reached fun d' hexec => ?_
      exact ⟨2, le_rfl, fun _ => two_ne_zero, steps_succ (h.step_jumpRegister hdecode hm)
        (steps_succ (h.step_slot hdelay hexec _) rfl)⟩
    | branch hdecode hm hslot =>
      have hreached := h.reached_branch (d := d) hdecode hm hslot []
      simpa [Move.next, Move.cost] using hreached

/-- A processor at the head of a block goes through it. -/
theorem reached_leg {s : Side} (hs : Side.Fillable l c s) (budget : Nat) (d : Core t.bits μ)
    {M : Processor t.bits μ} {k : Nat} (hk : k + s.ahead ≤ n) (hpos : k ≠ 0)
    (hsteps : M.steps B k = some (s.facing d)) :
    (Leg.travel B ⟨s.delay.bind (decode? l c), path l c budget s.addr⟩ d).ReachedFrom B M
      (n + (path l c budget s.addr).cost) ((path l c budget s.addr).sides c) := by
  obtain ⟨addr, delay⟩ := s
  cases delay with
  | none =>
    exact (h.reached_travel budget addr d).after hsteps hpos
      (Nat.add_le_add_right ((Nat.le_add_right k _).trans hk) _)
  | some a =>
    obtain ⟨slot, hslot, -⟩ := hs a rfl
    simp only [Option.bind_some, hslot, Leg.travel]
    refine perform_reached fun d' hexec => ?_
    have hstep := h.step_exec (M := ⟨d, t.low a, some (t.low addr)⟩) hslot rfl hexec
    have hsteps' : M.steps B (k + 1) = some (facing d' addr) :=
      steps_add hsteps (steps_succ hstep rfl)
    exact (h.reached_travel budget addr d').after hsteps' (Nat.succ_ne_zero k)
      (Nat.add_le_add_right hk _)

theorem reached_pass {s : Side} (hs : Side.Fillable l c s) (budget : Nat) {rest : List Side}
    {M : Processor t.bits μ} (hn : n ≠ 0) {L : Landing t.bits μ}
    (hL : L.ReachedFrom B M n (s :: rest)) :
    (Leg.pass B c ⟨s.delay.bind (decode? l c), path l c budget s.addr⟩ L).ReachedFrom B M
      (n + (path l c budget s.addr).cost) ((path l c budget s.addr).sides c ++ rest) := by
  cases L with
  | ended M' =>
    obtain ⟨k, hk, hpos, hM'⟩ := hL
    exact ⟨k, hk.trans (Nat.le_add_right n _), fun _ => hpos hn, hM'⟩
  | refused p => trivial
  | waits i d =>
    obtain ⟨k, s', hs', hk, hpos, hsteps⟩ := hL
    cases i with
    | zero =>
      cases hs'
      exact (h.reached_leg hs budget d hk (hpos hn) hsteps).append rest
    | succ i =>
      refine ⟨k, s', ?_, hk.trans (Nat.le_add_right n _), fun _ => hpos hn, hsteps⟩
      rw [getElem?_append_right (Nat.le_add_left _ i), Nat.add_sub_cancel]
      exact hs'

/-- The whole plan is passed. -/
theorem reached_tour (steps budget : Nat) (hsteps : sides.length + budget ≤ steps)
    (hfill : ∀ s ∈ sides, Side.Fillable l c s) {M : Processor t.bits μ} (hn : n ≠ 0)
    {L : Landing t.bits μ} (hL : L.ReachedFrom B M n sides) :
    (tour B c (plan l c steps budget sides) L).ReachedFrom B M (n + budget) [] := by
  induction steps generalizing budget sides n L with
  | zero =>
    obtain rfl : sides = [] := eq_nil_of_length_eq_zero (by omega)
    exact hL.mono hn (Nat.le_add_right n budget)
  | succ steps ih =>
    cases sides with
    | nil => exact hL.mono hn (Nat.le_add_right n budget)
    | cons s rest =>
      have hle := path_cost_le (l := l) (c := c) budget s.addr
      obtain ⟨hlength, hopened⟩ := path_sides (l := l) (c := c) budget s.addr
      have hpass := h.reached_pass (hfill s mem_cons_self) budget hn hL
      have hrest : ∀ s' ∈ (path l c budget s.addr).sides c ++ rest, Side.Fillable l c s' := by
        intro s' hs'
        rcases mem_append.mp hs' with hs' | hs'
        · exact hopened s' hs'
        · exact hfill s' (mem_cons_of_mem s hs')
      have htour := ih (budget - (path l c budget s.addr).cost)
        (by simp only [length_append, length_cons] at hsteps ⊢; omega) hrest (by omega)
        hpass
      have hsum : n + (path l c budget s.addr).cost +
          (budget - (path l c budget s.addr).cost) = n + budget := by omega
      rw [hsum] at htour
      exact htour

/-- The plan of a region of which something can be lifted is a run of the processor. -/
theorem steps_journey (hl : Liftable l c l.budget c.start) (d : Core t.bits μ)
    {M : Processor t.bits μ} (hM : l.journey c B d = .ended M) :
    ∃ n, 1 ≤ n ∧ n ≤ l.budget ∧ (facing d c.start).steps B n = some M := by
  set p := path l c l.budget c.start with hp
  have hcost : p.cost ≠ 0 := by
    have hstop := (move_eq_stop_iff l c l.budget c.start).not.mpr (not_not.mpr hl)
    rw [hp, path_eq, Path.cost_cons]
    cases hmove : move l c l.budget c.start with
    | stop => exact absurd hmove hstop
    | _ => simp [Move.cost]
  have hle := path_cost_le (l := l) (c := c) l.budget c.start
  obtain ⟨hlength, hfill⟩ := path_sides (l := l) (c := c) l.budget c.start
  rw [← hp] at hle hlength hfill
  have htour := h.reached_tour l.budget (l.budget - p.cost)
    (by omega) hfill hcost (h.reached_travel l.budget c.start d)
  have hjourney : l.journey c B d = tour B c
      (plan l c l.budget (l.budget - p.cost) (p.sides c)) (travel B p d) := by
    unfold Lifter.journey
    rw [plan, append_nil]
    rfl
  rw [← hp, ← hjourney, hM] at htour
  obtain ⟨n, hn, hpos, hsteps⟩ := htour
  have hn₀ := hpos (by omega)
  exact ⟨n, by omega, by omega, hsteps⟩

end Board.Holds

end Dynarec.Guest
