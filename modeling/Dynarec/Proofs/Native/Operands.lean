import Dynarec.Proofs.Native.Code

/-!
# Operands and results of native code

Code loads values into scratch registers, works on them and moves the result into a home. `Works` says
that a piece of code changes nothing else: other registers and memory stay, and what is logged stays
inside the frame. A home holds a word; loads leave that word in a scratch register, and stores make the
home of the result hold it.
-/
namespace Dynarec.Native

open Machine

variable {ev ev' : List RunEvent} {F : Set UInt64} {s s' s'' : State} {a x : UInt64} {r dst : Reg}
  {n : Nat}

/-- An access as an event of the bus. -/
def busEvent (e : Transfer) : RunEvent :=
  if e.isWrite then .store e.bytes e.addr e.word true else .load e.bytes e.addr (some e.word)

/-- Accesses inside `F`, which nobody sees, and between them those that make the events. -/
inductive Traffic (F : Set UInt64) : List Transfer → List RunEvent → Prop
  | nil : Traffic F [] []
  | hidden {e l ev} (he : e.span ⊆ F) (h : Traffic F l ev) : Traffic F (e :: l) ev
  | seen {e l ev} (h : Traffic F l ev) : Traffic F (e :: l) (busEvent e :: ev)

theorem Traffic.append {l l' : List Transfer} (h : Traffic F l ev) (h' : Traffic F l' ev') :
    Traffic F (l ++ l') (ev ++ ev') := by
  induction h with
  | nil => exact h'
  | hidden he _ ih => exact .hidden he ih
  | seen _ ih => exact .seen ih

/-- What was accessed on the way from `s` to `s'`. -/
def Moves (F : Set UInt64) (ev : List RunEvent) (s s' : State) : Prop :=
  ∃ l, s'.log = s.log ++ l ∧ Traffic F l ev

namespace Moves

theorem of_eq (h : s'.log = s.log) : Moves F [] s s' :=
  ⟨[], by rw [h, List.append_nil], .nil⟩

theorem trans (h : Moves F ev s s') (h' : Moves F ev' s' s'') : Moves F (ev ++ ev') s s'' := by
  obtain ⟨l, hl, ht⟩ := h
  obtain ⟨l', hl', ht'⟩ := h'
  exact ⟨l ++ l', by rw [hl', hl, List.append_assoc], ht.append ht'⟩

end Moves

/-- The registers that hold values while an operation works. -/
def scratch : List Reg := [.rax, .rcx, .rdx]

/-- What a state has in common with one that it came from by work on scratch registers, in which all
accesses were inside `F`. -/
structure Works (F : Set UInt64) (s s' : State) : Prop where
  regs : ∀ r ∉ scratch, s'.regs r = s.regs r
  memory : s'.memory = s.memory
  moves : Moves F [] s s'

namespace Works

theorem refl (F : Set UInt64) (s : State) : Works F s s :=
  ⟨fun _ _ => rfl, rfl, .of_eq rfl⟩

theorem trans (h : Works F s s') (h' : Works F s' s'') : Works F s s'' :=
  ⟨fun r hr => (h'.regs r hr).trans (h.regs r hr), h'.memory.trans h.memory,
    h.moves.trans h'.moves⟩

theorem setReg (F : Set UInt64) (s : State) (hr : r ∈ scratch) (x : UInt64) :
    Works F s (s.setReg r x) := by
  refine ⟨fun q hq => ?_, rfl, .of_eq rfl⟩
  have hne : q ≠ r := by
    rintro rfl
    exact hq hr
  simp [State.setReg, hne]

theorem flags (F : Set UInt64) (s : State) (f : Option Flags) : Works F s { s with flags := f } :=
  ⟨fun _ _ => rfl, rfl, .of_eq rfl⟩

theorem read (s : State) (hin : span a n ⊆ F) : Works F s (s.read a n).2 :=
  ⟨fun _ _ => rfl, rfl, [⟨false, a, n, s.memory.read a n⟩], rfl, .hidden hin .nil⟩

end Works

namespace Home

/-- The addresses of a home in the frame. -/
def span (s : State) : Home → Set UInt64
  | .spill disp n => Dynarec.span (s.address (frameMem disp)) n
  | _ => ∅

/-- The home has the word `x`. -/
def Holds (s : State) (x : UInt64) : Home → Prop
  | .reg r => s.regs r = x
  | .spill disp n => s.memory.read (s.address (frameMem disp)) n = x
  | .slot _ _ | .none => False

/-- The homes of variables, as opposed to private slots. -/
def IsPlain : Home → Prop
  | .reg _ | .spill _ _ => True
  | .slot _ _ | .none => False

end Home

/-- Homes that no work on scratch registers disturbs: registers of the pool and bytes of the frame. -/
structure Homes.Framed (h : Homes) (F : Set UInt64) (s : State) : Prop where
  pool : ∀ {id r}, h.get id = .reg r → r ∈ pool
  frame : ∀ {id disp n}, h.get id = .spill disp n → span (s.address (frameMem disp)) n ⊆ F

/-- The word that a value stands for: a constant has it, and the home of a variable holds it. -/
def Carries (h : Homes) (s : State) (x : UInt64) : Value → Prop
  | .const _ y => y = x
  | .var _ id => (h.get id).Holds s x

variable {h : Homes}

theorem address_frameMem_of_eq (hrbp : s'.regs .rbp = s.regs .rbp) (disp : Int) :
    s'.address (frameMem disp) = s.address (frameMem disp) := by
  simp [State.address, frameMem, hrbp]

theorem Works.rbp (hw : Works F s s') : s'.regs .rbp = s.regs .rbp :=
  hw.regs .rbp (by decide)

theorem notMem_scratch (hr : r ∈ pool) : r ∉ scratch := by
  revert hr
  cases r <;> decide

theorem Homes.Framed.works (hf : h.Framed F s) (hw : Works F s s') : h.Framed F s' :=
  ⟨hf.pool, fun hid => by rw [address_frameMem_of_eq hw.rbp]; exact hf.frame hid⟩

/-- Homes keep what they have while an operation works. -/
theorem Carries.works (hf : h.Framed F s) {v : Value} (hv : Carries h s x v) (hw : Works F s s') :
    Carries h s' x v := by
  cases v with
  | const t y => exact hv
  | var t id =>
    simp only [Carries] at hv ⊢
    cases hhome : h.get id with
    | reg r =>
      rw [hhome] at hv
      exact (hw.regs r (notMem_scratch (hf.pool hhome))).trans hv
    | spill disp n =>
      rw [hhome] at hv
      simp only [Home.Holds] at hv ⊢
      rw [address_frameMem_of_eq hw.rbp, hw.memory, hv]
    | slot | none => rwa [hhome] at hv

section Loads

/-- A state with a word in a scratch register, and otherwise as it was. -/
structure Loads (F : Set UInt64) (dst : Reg) (x : UInt64) (s s' : State) : Prop extends
    Works F s s' where
  value : s'.regs dst = x
  others : ∀ r, r ≠ dst → s'.regs r = s.regs r

theorem loads_setReg (F : Set UInt64) (s : State) (hdst : dst ∈ scratch) (x : UInt64) :
    Loads F dst x s (s.setReg dst x) :=
  ⟨.setReg F s hdst x, by simp [State.setReg], fun r hr => by simp [State.setReg, hr]⟩

theorem ofBytes_ok {size : Size} (h : Size.ofBytes n = .ok size) : n = size.bytes := by
  unfold Size.ofBytes Size.ofBytes? at h
  split at h
  · rename_i z hz
    cases h
    split_ifs at hz <;> cases hz <;> simp only [Size.bytes] <;> omega
  · cases h

theorem read_lt (m : Memory) (a : UInt64) (hn : n ≤ 8) : (m.read a n).toNat < 2 ^ (8 * n) := by
  rw [m.toNat_read_of_le a le_rfl hn]
  exact Nat.mod_lt _ (by positivity)

theorem ofBitVec_setWidth (hx : x.toNat < 2 ^ n) :
    (⟨(x.toBitVec.setWidth n).setWidth 64⟩ : UInt64) = x := by
  apply UInt64.toNat_inj.mp
  show ((x.toBitVec.setWidth n).setWidth 64).toNat = x.toNat
  rw [BitVec.toNat_setWidth, BitVec.toNat_setWidth, UInt64.toNat_toBitVec, Nat.mod_eq_of_lt hx,
    Nat.mod_eq_of_lt x.toNat_lt]

theorem exec_zeroExtend {m : Mem} {i : Machine.Instr}
    (hi : Machine.Instr.zeroExtend n dst (.mem m) = .ok i) (s : State) :
    i.exec s = .ok ((s.read (s.address m) n).2.setReg dst (s.memory.read (s.address m) n)) := by
  have hword {k : Nat} (hk : k ≤ 8) : (⟨((s.memory.read (s.address m) k).toBitVec.setWidth
      (8 * k)).setWidth 64⟩ : UInt64) = s.memory.read (s.address m) k :=
    ofBitVec_setWidth (read_lt _ _ hk)
  have hset {k : Nat} {x y : UInt64} (h : x = y) :
      (.ok ((s.read (s.address m) k).2.setReg dst x) : Except Trap State) =
        .ok ((s.read (s.address m) k).2.setReg dst y) := by rw [h]
  unfold Machine.Instr.zeroExtend at hi
  split_ifs at hi with h1 h2
  · obtain rfl : n = 1 := by omega
    cases hi
    exact hset (hword (k := 1) (by decide))
  · obtain rfl : n = 2 := by omega
    cases hi
    exact hset (hword (k := 2) (by decide))
  · obtain ⟨size, hsize, ⟨⟩⟩ := Except.bind_eq_ok.mp hi
    obtain rfl := ofBytes_ok hsize
    cases size with
    | byte => exact absurd rfl h1
    | word => exact absurd rfl h2
    | dword => exact hset (hword (k := 4) (by decide))
    | qword => exact hset (k := 8) (congrArg UInt64.ofBitVec (BitVec.setWidth_eq _))

theorem loads_read (F : Set UInt64) (s : State) (hdst : dst ∈ scratch) (hin : span a n ⊆ F) :
    Loads F dst (s.memory.read a n) s ((s.read a n).2.setReg dst (s.memory.read a n)) := by
  exact ⟨(Works.read s hin).trans (.setReg F _ hdst _), by simp [State.setReg], fun r hr => by
    simp [State.setReg, hr, State.read]⟩

theorem exec_movReg (r dst : Reg) (s : State) :
    (Machine.Instr.movTo .qword (.reg dst) r).exec s = .ok (s.setReg dst (s.regs r)) := by
  show Except.ok (s.setReg dst ⟨(s.regs r).toBitVec.setWidth 64⟩) = _
  rw [BitVec.setWidth_eq]

theorem runs_load (hf : h.Framed F s) (hdst : dst ∈ scratch) {v : Value} {code : Code}
    (hcode : Select.load h dst v = .ok code) (hv : Carries h s x v) :
    ∃ s', Runs code s [] s' ∧ Loads F dst x s s' := by
  cases v with
  | const t y =>
    cases hcode
    obtain rfl : y = x := hv
    exact ⟨_, .instr (Machine.Instr.exec_loadImm dst y s) .refl, loads_setReg F s hdst y⟩
  | var t id =>
    simp only [Carries] at hv
    simp only [Select.load] at hcode
    cases hhome : h.get id with
    | reg r =>
      rw [hhome] at hv
      simp only [hhome, Except.ok.injEq] at hcode
      have hne : r ≠ dst := by
        rintro rfl
        exact notMem_scratch (hf.pool hhome) hdst
      rw [if_neg hne] at hcode
      obtain rfl := hcode
      obtain rfl : s.regs r = x := hv
      exact ⟨_, .instr (exec_movReg r dst s) .refl, loads_setReg F s hdst _⟩
    | spill disp n =>
      rw [hhome] at hv
      simp only [hhome] at hcode
      obtain ⟨i, hi, ⟨⟩⟩ := Except.bind_eq_ok.mp hcode
      obtain rfl : s.memory.read (s.address (frameMem disp)) n = x := hv
      exact ⟨_, .instr (exec_zeroExtend hi s) .refl, loads_read F s hdst (hf.frame hhome)⟩
    | slot | none =>
      rw [hhome] at hv
      exact hv.elim

end Loads

section Stores

/-- A state in which a home has the word `x`, and which differs from `s` only in that home and in
scratch registers. -/
structure Settles (F : Set UInt64) (ev : List RunEvent) (home : Home) (x : UInt64) (s s' : State) :
    Prop where
  holds : home.Holds s' x
  regs : ∀ r ∉ scratch, home ≠ .reg r → s'.regs r = s.regs r
  memory : ∀ a ∉ home.span s, s'.memory a = s.memory a
  moves : Moves F ev s s'

theorem Home.span_of_eq (home : Home) (hrbp : s'.regs .rbp = s.regs .rbp) :
    home.span s' = home.span s := by
  cases home with
  | spill disp n => simp only [Home.span, address_frameMem_of_eq hrbp]
  | reg | slot | none => rfl

theorem Settles.prepend {home : Home} (hregs : ∀ r ∉ scratch, s'.regs r = s.regs r)
    (hmemory : s'.memory = s.memory) (hmoves : Moves F ev s s') (hs : Settles F ev' home x s' s'') :
    Settles F (ev ++ ev') home x s s'' := by
  refine ⟨hs.holds, fun r hr hne => (hs.regs r hr hne).trans (hregs r hr), ?_,
    hmoves.trans hs.moves⟩
  intro a ha
  rw [hs.memory a (by rwa [home.span_of_eq (hregs _ (by decide))]), hmemory]

theorem Works.settles {home : Home} (hw : Works F s s') (hs : Settles F ev home x s' s'') :
    Settles F ev home x s s'' :=
  .prepend hw.regs hw.memory hw.moves hs

theorem bytes_bits (size : Size) : 8 * size.bytes = size.bits := by
  cases size <;> rfl

theorem runs_store (hf : h.Framed F s) {i : Dynarec.Instr} {src : Reg} {code : Code}
    (hcode : Select.store h i src = .ok code) (hplain : (h.get i.res).IsPlain)
    (hroom : ∀ disp n, h.get i.res = .spill disp n → (s.regs src).toNat < 2 ^ (8 * n)) :
    ∃ s', Runs code s [] s' ∧ Settles F [] (h.get i.res) (s.regs src) s s' := by
  simp only [Select.store] at hcode
  cases hget : h.get i.res with
  | reg r =>
    simp only [hget, Except.ok.injEq] at hcode
    obtain rfl := hcode
    refine ⟨_, .instr (exec_movReg src r s) .refl, ?_, ?_, fun _ _ => rfl, .of_eq rfl⟩
    · simp [Home.Holds, State.setReg]
    · intro q _ hne
      have : q ≠ r := by
        rintro rfl
        exact hne rfl
      simp [State.setReg, this]
  | spill disp n =>
    simp only [hget] at hcode
    obtain ⟨size, hsize, ⟨⟩⟩ := Except.bind_eq_ok.mp hcode
    obtain rfl := ofBytes_ok hsize
    have hlt := hroom disp _ hget
    have hx : (⟨(s.low size src).setWidth 64⟩ : UInt64) = s.regs src :=
      ofBitVec_setWidth (by rw [← bytes_bits]; exact hlt)
    have hmove : (Machine.Instr.movTo size (.mem (frameMem disp)) src).exec s =
        .ok (s.write (s.address (frameMem disp)) size.bytes (s.regs src)) := by
      show Except.ok (s.write _ _ ⟨(s.low size src).setWidth 64⟩) = _
      rw [hx]
    refine ⟨_, .instr hmove .refl, ?_, fun _ _ _ => rfl,
      fun a ha => Memory.write_of_notMem ha _, [_], rfl, .hidden (hf.frame hget) .nil⟩
    apply UInt64.toNat_inj.mp
    have hn : size.bytes ≤ 2 ^ 64 := by cases size <;> decide
    show ((s.memory.write (s.address (frameMem disp)) size.bytes (s.regs src)).read
      (s.address (frameMem disp)) size.bytes).toNat = _
    rw [Memory.toNat_read_write _ _ hn]
    exact Nat.mod_eq_of_lt hlt
  | slot | none =>
    rw [hget] at hplain
    exact hplain.elim

end Stores

end Dynarec.Native
