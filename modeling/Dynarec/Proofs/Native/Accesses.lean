import Dynarec.Proofs.Native.Scalar

/-!
# Accesses to the bus and to registers

A load or a store of the graph is one access of the processor at the same address, which is seen from
outside. The cells of registers are accessed too, but they belong to the hidden part `F` of memory.
Besides that access the code works on scratch registers, and a load settles its result.
-/
namespace Dynarec

variable {n : Nat} {size : Size} {imm : Int32} {b : Binding}

/-- A write looks only at as many bytes of the word as it writes. -/
theorem Bytes.ofWordLE_congr {x y : UInt64} (h : x.toNat % 2 ^ (8 * n) = y.toNat % 2 ^ (8 * n)) :
    ofWordLE n x = ofWordLE n y := by
  induction n generalizing x y with
  | zero => rfl
  | succ n ih =>
    have hpow : 2 ^ (8 * (n + 1)) = 256 * 2 ^ (8 * n) := by
      rw [show 8 * (n + 1) = 8 + 8 * n by ring, pow_add]
      rfl
    have hhigh (z : UInt64) : (z >>> 8).toNat = z.toNat / 256 := by
      rw [UInt64.toNat_shiftRight, Nat.shiftRight_eq_div_pow]
      rfl
    rw [hpow, Nat.mod_mul, Nat.mod_mul] at h
    have hlow : x.toUInt8 = y.toUInt8 := by
      apply UInt8.toNat_inj.mp
      rw [UInt64.toNat_toUInt8, UInt64.toNat_toUInt8]
      omega
    have hrest : ofWordLE n (x >>> 8) = ofWordLE n (y >>> 8) := by
      refine ih ?_
      rw [hhigh, hhigh]
      omega
    rw [ofWordLE, ofWordLE, hlow, hrest]

theorem Memory.write_congr (m : Memory) (a : UInt64) {x y : UInt64}
    (h : x.toNat % 2 ^ (8 * n) = y.toNat % 2 ^ (8 * n)) : m.write a n x = m.write a n y := by
  rw [write, write, Bytes.ofWordLE_congr h]

namespace Native

open Machine Dynarec.Except

variable {F : Set UInt64} {s s' s'' : State} {h : Homes} {i : Dynarec.Instr} {v w : Value}
  {code : Code} {a x y : UInt64} {ev : List RunEvent}

/-- How a write of `n` bytes of `x` shows outside. -/
inductive Shows (F : Set UInt64) (a : UInt64) (n : Nat) (x : UInt64) : List RunEvent → Prop
  | hidden (h : span a n ⊆ F) : Shows F a n x []
  | seen (h : x.toNat < 2 ^ (8 * n)) : Shows F a n x [.store n a x true]

/-- A state that differs from `s` in one write to memory and in scratch registers. -/
structure Writes (F : Set UInt64) (ev : List RunEvent) (a : UInt64) (n : Nat) (x : UInt64)
    (s s' : State) : Prop where
  regs : ∀ r ∉ scratch, s'.regs r = s.regs r
  memory : s'.memory = s.memory.write a n x
  moves : Moves F ev s s'

theorem Works.writes (hw : Works F s s') (hs : Writes F ev a n x s' s'') :
    Writes F ev a n x s s'' :=
  ⟨fun r hr => (hs.regs r hr).trans (hw.regs r hr), by rw [hs.memory, hw.memory],
    hw.moves.trans hs.moves⟩

theorem writes_write {z : UInt64} (hshow : Shows F a n x ev)
    (hz : z.toNat = x.toNat % 2 ^ (8 * n)) : Writes F ev a n x s (s.write a n z) := by
  refine ⟨fun _ _ => rfl, Memory.write_congr _ _ (by rw [hz, Nat.mod_mod]), [_], rfl, ?_⟩
  cases hshow with
  | hidden h => exact .hidden h .nil
  | seen hlt =>
    rw [Nat.mod_eq_of_lt hlt, UInt64.toNat_inj] at hz
    rw [hz]
    exact .seen .nil

section Stores

theorem address_reg {r : Reg} (hr : s.regs r = a) : s.address ⟨r, 0⟩ = a := by
  show s.regs r + 0 = a
  rw [hr, UInt64.add_zero]

theorem runs_movReg {r src : Reg} (hr : s.regs r = a) (hsrc : s.regs src = x)
    (hshow : Shows F a size.bytes x ev) :
    ∃ s', Runs [.movTo size (.mem ⟨r, 0⟩) src] s [] s' ∧ Writes F ev a size.bytes x s s' := by
  have hexec : (Machine.Instr.movTo size (.mem ⟨r, 0⟩) src).exec s =
      .ok (s.write (s.address ⟨r, 0⟩) size.bytes ⟨(s.low size src).setWidth 64⟩) := rfl
  rw [address_reg hr] at hexec
  refine ⟨_, .instr hexec .refl, writes_write hshow ?_⟩
  have hlt : x.toNat % 2 ^ size.bits < 2 ^ 64 := (Nat.mod_le _ _).trans_lt x.toNat_lt
  show ((s.low size src).setWidth 64).toNat = _
  rw [BitVec.toNat_setWidth, State.low, BitVec.toNat_setWidth, UInt64.toNat_toBitVec, hsrc,
    bytes_bits, Nat.mod_eq_of_lt hlt]

/-- A constant that one move can store is stored with its low bytes. -/
theorem toNat_immediate {t : Ty} (himm : Select.immediate? size.bytes (.const t x) = some imm) :
    ((imm.toBitVec.signExtend size.bits).setWidth 64).toNat = x.toNat % 2 ^ (8 * size.bytes) := by
  simp only [Select.immediate?] at himm
  split_ifs at himm with hwide
  cases himm
  have hnarrow (hle : size.bits ≤ 32) :
      ((x.toUInt32.toInt32.toBitVec.signExtend size.bits).setWidth 64).toNat =
        x.toNat % 2 ^ size.bits := by
    have hdvd : 2 ^ size.bits ∣ 2 ^ 32 := pow_dvd_pow 2 hle
    have hlt : x.toNat % 2 ^ size.bits < 2 ^ 64 := (Nat.mod_le _ _).trans_lt x.toNat_lt
    rw [BitVec.signExtend_eq_setWidth_of_le _ hle, BitVec.toNat_setWidth, BitVec.toNat_setWidth]
    show x.toNat % 2 ^ 32 % 2 ^ size.bits % 2 ^ 64 = _
    rw [Nat.mod_mod_of_dvd _ hdvd, Nat.mod_eq_of_lt hlt]
  rw [bytes_bits]
  cases size with
  | byte | word | dword => exact hnarrow (by decide)
  | qword =>
    have hfits : Machine.Instr.fitsImm32 x = true := by
      by_contra hno
      exact hwide ⟨rfl, by simpa using hno⟩
    have hx := congrArg UInt64.toNat (Machine.Instr.fitsImm32_iff.mp hfits)
    show ((x.toUInt32.toInt32.toBitVec.signExtend 64).setWidth 64).toNat = x.toNat % 2 ^ 64
    rw [BitVec.setWidth_eq, Nat.mod_eq_of_lt x.toNat_lt]
    exact hx

theorem runs_movImm {r : Reg} {t : Ty} (hr : s.regs r = a)
    (himm : Select.immediate? size.bytes (.const t x) = some imm)
    (hshow : Shows F a size.bytes x ev) :
    ∃ s', Runs [.movImm size (.mem ⟨r, 0⟩) imm] s [] s' ∧ Writes F ev a size.bytes x s s' := by
  have hexec : (Machine.Instr.movImm size (.mem ⟨r, 0⟩) imm).exec s = .ok
      (s.write (s.address ⟨r, 0⟩) size.bytes ⟨(imm.toBitVec.signExtend size.bits).setWidth 64⟩) :=
    rfl
  rw [address_reg hr] at hexec
  exact ⟨_, .instr hexec .refl, writes_write hshow (toNat_immediate himm)⟩

theorem address_ok {p : Code × Mem} (ha : Carries h s a v) (hp : Select.address h v = .ok p) :
    Select.load h .rax v = .ok p.1 ∧ p.2 = ⟨.rax, 0⟩ := by
  have hload (hp : (do return (← Select.load h .rax v, (⟨.rax, 0⟩ : Mem))) = .ok p) :
      Select.load h .rax v = .ok p.1 ∧ p.2 = ⟨.rax, 0⟩ := by
    obtain ⟨code, hcode, ⟨⟩⟩ := bind_eq_ok.mp hp
    exact ⟨hcode, rfl⟩
  cases v with
  | const t y => exact hload hp
  | var t id =>
    simp only [Select.address] at hp
    cases hhome : h.get id with
    | slot =>
      simp only [Carries, hhome] at ha
      exact ha.elim
    | none | reg | spill =>
      rw [hhome] at hp
      exact hload hp

theorem immediate?_eq_some {size : Nat} (hv : Carries h s x v)
    (himm : Select.immediate? size v = some imm) : ∃ t, v = .const t x := by
  cases v with
  | const t y =>
    obtain rfl : y = x := hv
    exact ⟨t, rfl⟩
  | var t id => cases himm

theorem runs_storeMem (hf : h.Framed F s) (ht : w.ty.IsScalar)
    (hcode : Select.storeMem h v w = .ok code) (ha : Carries h s a v) (hx : Carries h s x w)
    (hfits : w.ty.Fits x) :
    ∃ s', Runs code s [] s' ∧
      Writes F [.store w.ty.accessBytes a x true] a w.ty.accessBytes x s s' := by
  have hbytes : w.ty.accessBytes = w.ty.bytes := by
    rcases ht.cases with h | h | h | h | h <;> rw [h] <;> rfl
  have hshow : Shows F a w.ty.bytes x [.store w.ty.bytes a x true] := by
    refine .seen (((Ty.fits_iff_lt ht.bits_le x).mp hfits).trans_le ?_)
    exact Nat.pow_le_pow_right (by decide) (hbytes ▸ ht.bits_le_access)
  rw [hbytes]
  simp only [Select.storeMem] at hcode
  cases himm : Select.immediate? w.ty.bytes w with
  | some imm =>
    obtain ⟨t, rfl⟩ := immediate?_eq_some hx himm
    simp only [himm] at hcode
    obtain ⟨p, hp, hcode⟩ := bind_eq_ok.mp hcode
    obtain ⟨hload, hm⟩ := address_ok ha hp
    obtain ⟨size, hsize, ⟨⟩⟩ := bind_eq_ok.mp hcode
    rw [ofBytes_ok hsize] at himm hshow ⊢
    obtain ⟨s₁, hrun, hw, hs₁⟩ := yields_first hf hload ha
    obtain ⟨s₂, hrun', hs₂⟩ := runs_movImm hs₁ himm hshow
    rw [hm]
    exact ⟨s₂, hrun.seq hrun', hw.writes hs₂⟩
  | none =>
    simp only [himm] at hcode
    obtain ⟨first, p, hfirst, hp, hcode⟩ := bind₂_eq_ok.mp hcode
    obtain ⟨hload, hm⟩ := address_ok ha hp
    obtain ⟨size, hsize, ⟨⟩⟩ := bind_eq_ok.mp hcode
    rw [ofBytes_ok hsize] at hshow ⊢
    have hboth : Yields F (first ++ p.1) s fun s' => s'.regs .rax = a ∧ s'.regs .rcx = x := by
      refine (yields_load hf (by decide) hfirst hx).seq fun hw₁ hs₁ => ?_
      exact (yields_load (hf.works hw₁) (by decide) hload (ha.works hf hw₁)).mono fun _ hs₂ => by
        simp [hs₂, hs₁]
    obtain ⟨s₁, hrun, hw, hrax, hrcx⟩ := hboth
    obtain ⟨s₂, hrun', hs₂⟩ := runs_movReg hrax hrcx hshow
    rw [hm]
    exact ⟨s₂, hrun.seq hrun', hw.writes hs₂⟩

theorem runs_writeCell (hf : h.Framed F s) (hcell : span b.cell b.ty.accessBytes ⊆ F)
    (hcode : Select.writeCell h b v = .ok code) (hx : Carries h s x v) :
    ∃ s', Runs code s [] s' ∧ Writes F [] b.cell b.ty.accessBytes x s s' := by
  obtain ⟨size, hsize, hcode⟩ := bind_eq_ok.mp hcode
  have hbytes : b.ty.bytes = size.bytes := ofBytes_ok hsize
  have haccess : b.ty.accessBytes = size.bytes := by
    rw [Ty.accessBytes, hbytes]
    cases size <;> rfl
  rw [haccess] at hcell ⊢
  rw [hbytes] at hcode
  have hshow : Shows F b.cell size.bytes x [] := .hidden hcell
  cases himm : Select.immediate? size.bytes v with
  | some imm =>
    obtain ⟨t, rfl⟩ := immediate?_eq_some hx himm
    simp only [himm] at hcode
    cases hcode
    obtain ⟨s₁, hrun, hw, hs₁, -⟩ := yields_loadImm F s (r := .rcx) (by decide) b.cell
    obtain ⟨s₂, hrun', hs₂⟩ := runs_movImm (by rw [hs₁, Function.update_self]) himm hshow
    exact ⟨s₂, hrun.seq hrun', hw.writes hs₂⟩
  | none =>
    simp only [himm] at hcode
    obtain ⟨first, hfirst, ⟨⟩⟩ := bind_eq_ok.mp hcode
    have hboth : Yields F (first ++ [.loadImm .rcx b.cell]) s fun s' =>
        s'.regs .rcx = b.cell ∧ s'.regs .rax = x := by
      refine (yields_load hf (by decide) hfirst hx).seq fun {s₁} _ hs₁ => ?_
      exact (yields_loadImm F s₁ (by decide) b.cell).mono fun _ hs₂ => by simp [hs₂.1, hs₁]
    obtain ⟨s₁, hrun, hw, hrcx, hrax⟩ := hboth
    obtain ⟨s₂, hrun', hs₂⟩ := runs_movReg hrcx hrax hshow
    have hall := hrun.seq hrun'
    rw [List.append_assoc] at hall
    exact ⟨s₂, hall, hw.writes hs₂⟩

end Stores

section Loads

theorem zeroExtend_ok {dst : Reg} {src : Operand} {get : Machine.Instr}
    (hget : Machine.Instr.zeroExtend n dst src = .ok get) : n ≤ 8 := by
  unfold Machine.Instr.zeroExtend at hget
  split_ifs at hget with h1 h2
  · omega
  · omega
  · obtain ⟨size, hsize, -⟩ := bind_eq_ok.mp hget
    rw [ofBytes_ok hsize]
    cases size <;> decide

theorem runs_readCell (hf : h.Framed F s) (hh : h.Houses i) (ht : i.ty.IsScalar)
    (hcell : span b.cell b.ty.accessBytes ⊆ F) (hcode : Select.readCell h i b = .ok code) :
    ∃ s', Runs code s [] s' ∧ Settles F [] (h.get i.res)
      (s.memory.read b.cell b.ty.accessBytes &&& i.ty.mask) s s' := by
  obtain ⟨get, back, hget, hback, ⟨⟩⟩ := bind₂_eq_ok.mp hcode
  have hbytes : b.ty.accessBytes = b.ty.bytes := min_eq_left (zeroExtend_ok hget)
  rw [hbytes] at hcell ⊢
  have hread : Yields F ([.loadImm .rcx b.cell] ++ [get]) s fun s' =>
      s'.regs .rax = s.memory.read b.cell b.ty.bytes := by
    refine (yields_loadImm F s (by decide) b.cell).seq fun {s₁} hw₁ hs₁ => ?_
    have hexec := exec_zeroExtend hget s₁
    rw [address_reg (a := b.cell) (by rw [hs₁.1, Function.update_self]), hw₁.memory] at hexec
    exact yields_instr hexec ((Works.read s₁ hcell).trans (.setReg F _ (by decide) _))
      (by simp [State.setReg])
  exact (hread.mask ht).settles hf hh ht hback (i.ty.fits_and_mask _)

theorem runs_loadMem (hf : h.Framed F s) (hh : h.Houses i) (ht : i.ty.IsScalar)
    (hcode : Select.loadMem h i v = .ok code) (ha : Carries h s a v) :
    ∃ s', Runs code s [] s' ∧ Settles F
      [.load i.ty.accessBytes a (some (s.memory.read a i.ty.accessBytes))] (h.get i.res)
      (s.memory.read a i.ty.accessBytes &&& i.ty.mask) s s' := by
  obtain ⟨p, hp, hcode⟩ := bind_eq_ok.mp hcode
  obtain ⟨hload, hm⟩ := address_ok ha hp
  obtain ⟨get, back, hget, hback, ⟨⟩⟩ := bind₂_eq_ok.mp hcode
  have hbytes : i.ty.accessBytes = i.ty.bytes := min_eq_left (zeroExtend_ok hget)
  rw [hbytes]
  -- the address, then the read, which is seen
  obtain ⟨s₁, hrun, hw, hs₁⟩ := yields_first hf hload ha
  let x := s₁.memory.read a i.ty.bytes
  let s₂ := (s₁.read a i.ty.bytes).2.setReg .rcx x
  have hexec : get.exec s₁ = .ok s₂ := by
    rw [hm] at hget
    rw [exec_zeroExtend hget s₁, address_reg hs₁]
  have hregs : ∀ r ∉ scratch, s₂.regs r = s₁.regs r := (Works.setReg F _ (by decide) x).regs
  have hmoves : Moves F [.load i.ty.bytes a (some x)] s₁ s₂ :=
    ⟨[⟨false, a, i.ty.bytes, x⟩], rfl, .seen .nil⟩
  have hf₂ : h.Framed F s₂ :=
    ⟨hf.pool, fun hid => by
      rw [address_frameMem_of_eq ((hregs .rbp (by decide)).trans hw.rbp)]
      exact hf.frame hid⟩
  -- what was read is cut and settled
  have hcut : Yields F (if i.ty = .i1 then Select.mask i.ty .rcx else []) s₂ fun s' =>
      s'.regs .rcx = x &&& i.ty.mask := by
    have hrcx : s₂.regs .rcx = x := by simp [s₂, State.setReg]
    split_ifs with hone
    · exact (yields_mask F s₂ ht (by decide)).mono fun _ hs => by
        rw [hs, Function.update_self, hrcx]
    · refine yields_nil (hrcx.trans (Eq.symm ?_))
      refine (Ty.fits_iff_lt ht.bits_le x).mpr ?_
      have hbits : i.ty.bits = 8 * i.ty.bytes := by
        rcases ht.cases with h | h | h | h | h
        · exact absurd h hone
        all_goals rw [h]; rfl
      rw [hbits]
      exact read_lt _ _ (zeroExtend_ok hget)
  obtain ⟨s₃, hrun', hs₃⟩ := hcut.settles hf₂ hh ht hback (i.ty.fits_and_mask _)
  have hx : x = s.memory.read a i.ty.bytes := by rw [← hw.memory]
  rw [← hx]
  refine ⟨s₃, ?_, hw.settles (.prepend hregs rfl hmoves hs₃)⟩
  rw [List.append_assoc, List.append_assoc]
  exact hrun.seq (.instr hexec hrun')

end Loads

end Native

end Dynarec
