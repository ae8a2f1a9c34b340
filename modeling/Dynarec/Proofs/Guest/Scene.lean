import Dynarec.Proofs.Graph.Meaning
import Dynarec.Proofs.Guest.Decode
import Dynarec.Proofs.Guest.State
import Dynarec.Proofs.Host.Memory

/-!
# A guest in the world of a run

The cells that a state is bound to hold the registers of a processor, and the bus of the world is the
memory of the processor. While a run passes what a building step appended, the world shows one state of
the processor after another. `Scene.Acts` says which: it is the judgement in which lifting is compared
with the processor, instruction by instruction.
-/
namespace Dynarec

namespace Ty

/-- The low bits of a word in memory lie in its low bytes. -/
theorem low_read_of_le {t : Ty} (m : Memory) (a : UInt64) {k n : Nat} (ht : t.bits ≤ 8 * k)
    (hk : k ≤ n) (hn : n ≤ 8) : t.low (m.read a k) = t.low (m.read a n) := by
  apply BitVec.eq_of_toNat_eq
  rw [toNat_low, toNat_low, m.toNat_read_of_le a hk hn]
  exact Nat.mod_mod_of_dvd _ (pow_dvd_pow 2 ht)

end Ty

namespace Guest

namespace State

variable (s : State)

theorem apart_cell {id id' : Nat} (hid : id < Register.count) (hid' : id' < Register.count)
    (hne : id ≠ id') {n n' : Nat} (hn : n ≤ 8) (hn' : n' ≤ 8) :
    Apart (s.cell id) n (s.cell id') n' := by
  intro i hi j hj he
  simp only [Register.count] at hid hid'
  have htoNat {k l : Nat} (hk : k < 67) (hl : l < 8) :
      (s.cell k + l.toUInt64).toNat = (s.base.toNat + (8 * k + l)) % 2 ^ 64 := by
    simp only [cell, UInt64.toNat_add, UInt64.toNat_mul, Nat.toUInt64_eq, UInt64.toNat_ofNat']
    rw [show (8 : UInt64).toNat = 8 from rfl]
    omega
  have hsame := congrArg UInt64.toNat he
  rw [htoNat hid (by omega), htoNat hid' (by omega)] at hsame
  omega

/-- A register as the guest sees it at a width. -/
def view (t : Ty) (c : Cells) (id : Nat) : BitVec t.bits :=
  t.low (c.read (s.cell id) 8)

variable {t : Ty} {c : Cells}

/-- Part of a cell is enough if it has all bits of the width. -/
theorem low_read_cell {n : Nat} (ht : t.bits ≤ 8 * n) (hn : n ≤ 8) (id : Nat) :
    t.low (c.read (s.cell id) n) = s.view t c id := by
  rw [view, Cells.read_eq, Cells.read_eq]
  exact Ty.low_read_of_le _ _ ht hn le_rfl

theorem view_write_self {n : Nat} (ht : t.bits ≤ 8 * n) (hn : n ≤ 8) (id : Nat) (x : UInt64) :
    s.view t (c.write (s.cell id) n x) id = t.low x := by
  rw [← s.low_read_cell ht hn]
  apply BitVec.eq_of_toNat_eq
  rw [Ty.toNat_low, Ty.toNat_low, Cells.read_eq, Cells.byte_write,
    Memory.toNat_read_write _ _ (by omega)]
  exact Nat.mod_mod_of_dvd _ (pow_dvd_pow 2 ht)

theorem view_write_of_ne {n : Nat} (hn : n ≤ 8) {id id' : Nat} (hid : id < Register.count)
    (hid' : id' < Register.count) (hne : id' ≠ id) (x : UInt64) :
    s.view t (c.write (s.cell id) n x) id' = s.view t c id' := by
  rw [view, view, Cells.read_eq, Cells.read_eq, Cells.byte_write,
    Memory.read_write_apart _ (s.apart_cell hid' hid hne le_rfl hn)]

theorem view_write (ht : t.bits ≤ 64) {id id' : Nat} (hid : id < Register.count)
    (hid' : id' < Register.count) (x : UInt64) :
    s.view t (c.write (s.cell id) 8 x) id' = if id' = id then t.low x else s.view t c id' := by
  split_ifs with he
  · rw [he, s.view_write_self (by omega) le_rfl]
  · exact s.view_write_of_ne le_rfl hid hid' he x

section Raise

variable (ht : t = Ty.i32 ∨ t = Ty.i64) (c) (code addr : UInt64)
include ht

theorem exceptionLevel_iff :
    c.read (s.cell (Register.system Register.status)) 8 &&& exceptionLevel = 0 ↔
      s.view t c (Register.system Register.status) &&& 2#t.bits = 0 := by
  set x := c.read (s.cell (Register.system Register.status)) 8 with hx
  have hlow : t.low (x &&& exceptionLevel) = t.low x &&& 2#t.bits := by
    rw [Ty.low_and]
    exact congrArg _ (t.low_ofNat (by decide))
  have hfits : t.Fits (x &&& exceptionLevel) := by
    have hmask : exceptionLevel &&& t.mask = exceptionLevel := by
      rcases ht with rfl | rfl <;> decide
    unfold Ty.Fits
    rw [UInt64.and_assoc, hmask]
  rw [view, ← hx, ← hlow, hfits.low_eq_zero_iff (by rcases ht with rfl | rfl <;> decide)]

theorem view_raise {id : Nat} (hid : id < Register.count) :
    s.view t (s.raise c code addr) id =
      if id = Register.pc then t.low exceptionVector
      else if id = Register.system Register.status then
        s.view t c (Register.system Register.status) ||| 2#t.bits
      else if id = Register.system Register.epc ∧
          s.view t c (Register.system Register.status) &&& 2#t.bits = 0 then t.low addr
      else if id = Register.system Register.cause then
        (s.view t c (Register.system Register.cause) &&& ~~~0x7c#t.bits) |||
          t.low ((code <<< 2) &&& causeCode)
      else s.view t c id := by
  have hbits : t.bits ≤ 64 := by rcases ht with rfl | rfl <;> decide
  have hcause (x : UInt64) : t.low (x &&& ~~~causeCode ||| code <<< 2 &&& causeCode) =
      t.low x &&& ~~~0x7c#t.bits ||| t.low (code <<< 2 &&& causeCode) := by
    have hlit : t.low causeCode = 0x7c#t.bits := t.low_ofNat (by decide)
    rw [Ty.low_or, Ty.low_and, Eval.low_not hbits, hlit]
  have hstatus (x : UInt64) : t.low (x ||| exceptionLevel) = t.low x ||| 2#t.bits := by
    have hlit : t.low exceptionLevel = 2#t.bits := t.low_ofNat (by decide)
    rw [Ty.low_or, hlit]
  simp only [raise, s.exceptionLevel_iff c ht]
  rw [s.view_write hbits (by decide) hid, s.view_write hbits (by decide) hid, hstatus]
  refine if_congr Iff.rfl rfl (if_congr Iff.rfl rfl ?_)
  by_cases hlevel : s.view t c (Register.system Register.status) &&& 2#t.bits = 0
  · rw [if_pos hlevel, s.view_write hbits (by decide) hid, s.view_write hbits (by decide) hid, hcause]
    simp only [hlevel, and_true]
    rfl
  · rw [if_neg hlevel, s.view_write hbits (by decide) hid, hcause]
    simp only [hlevel, and_false, if_false]
    rfl

end Raise

end State

end Guest

/-- The world is made of cells and of a memory behind a bus. -/
structure World.Joins {σ μ : Type} (W : World σ) (cells : σ → Cells) (memory : σ → μ)
    (bus : Guest.Bus μ) : Prop where
  readCell : ∀ s a n, W.readCell s a n = (cells s).read a n
  cells_writeCell : ∀ s a n x, cells (W.writeCell s a n x) = (cells s).write a n x
  memory_writeCell : ∀ s a n x, memory (W.writeCell s a n x) = memory s
  load : ∀ s n a, bus.load (memory s) n a = ((W.load s n a).1, memory (W.load s n a).2)
  cells_load : ∀ s n a, cells (W.load s n a).2 = cells s
  store : ∀ s n a x, bus.store (memory s) n a x =
    ((W.store s n a x).1, memory (W.store s n a x).2)
  cells_store : ∀ s n a x, cells (W.store s n a x).2 = cells s

namespace Guest

/-- A call that raises an exception in the registers of a state. -/
def State.RaisedBy {σ μ : Type} (st : State) (cells : σ → Cells) (memory : σ → μ)
    (impl : List UInt64 → σ → UInt64 × σ) : Prop :=
  ∀ cause addr s, memory (impl [cause, addr] s).2 = memory s ∧
    cells (impl [cause, addr] s).2 = st.raise (cells s) cause addr

/-- A run of a graph in a world that has cells and a memory, and the processor that the run is compared
with. -/
structure Scene (σ μ : Type) where
  course : Course σ
  cells : σ → Cells
  memory : σ → μ
  state : State
  width : Ty
  board : Board width.bits μ
  /-- What the cell of register zero has. -/
  zero : BitVec width.bits

namespace Scene

open Builder Register

variable {σ μ α β : Type} (S : Scene σ μ)

/-- The registers are bound, and the world is made of cells and of the bus of the processor. -/
structure Sound : Prop extends S.course.world.Joins S.cells S.memory S.board.bus where
  bound : S.state.Bound S.width S.course.space

/-- The world has the registers and the memory of a processor, the program counter apart. The cell of
register zero keeps what it has. -/
structure ShowsRest (s : σ) (d : Core S.width.bits μ) : Prop where
  memory : S.memory s = d.memory
  zero : S.state.view S.width (S.cells s) 0 = S.zero
  reg : ∀ {id : Nat}, id ≠ 0 → id < count → id ≠ pc →
    S.state.view S.width (S.cells s) id = d.reg id

/-- The world has the registers and the memory of a processor. The cell of the program counter is one
more register: it is written at the end only. -/
structure Shows (s : σ) (d : Core S.width.bits μ) : Prop extends S.ShowsRest s d where
  pc : S.state.view S.width (S.cells s) pc = d.reg pc

/-- An access that was refused has stopped the run, with the cause and in the state given. -/
def Refused (p : RunCause × Core S.width.bits μ) : Prop :=
  S.course.Stopped p.1 ∧ S.Shows S.course.final p.2

/-- In `s'` register `id` has the value `x`, and all else is as it is in `s`. -/
structure Wrote (s : σ) (id : Nat) (x : BitVec S.width.bits) (s' : σ) : Prop where
  memory : S.memory s' = S.memory s
  self : S.state.view S.width (S.cells s') id = x
  other : ∀ id' < count, id' ≠ id →
    S.state.view S.width (S.cells s') id' = S.state.view S.width (S.cells s) id'

def setting : Setting := ⟨S.width, S.board.map⟩

/-- A step that computes `x` from the registers. -/
def Computes (a : Build Value) (d : Core S.width.bits μ) (t : Ty) (x : BitVec t.bits) : Prop :=
  ∀ s, S.Shows s d → S.course.Yields a s t x

/-- A step that takes the processor from `d` to a state that `post` describes. -/
def Acts (a : Build α) (d : Core S.width.bits μ) (post : α → Core S.width.bits μ → Prop) : Prop :=
  ∀ s, S.Shows s d → S.course.Does a s fun x s' => ∃ d', post x d' ∧ S.Shows s' d'

/-- A step that takes the processor from `d` to a state that `post` describes, if it does not stop the
run. -/
def Tries (a : Build α) (d : Core S.width.bits μ) (stopped : Prop)
    (post : α → Core S.width.bits μ → Prop) : Prop :=
  ∀ s, S.Shows s d → S.course.Tries a s stopped fun x s' => ∃ d', post x d' ∧ S.Shows s' d'

variable {S} {d : Core S.width.bits μ} {t u : Ty} {s s' : σ} {id : Nat} {x : BitVec S.width.bits}

theorem ShowsRest.set (h : S.ShowsRest s d) (hw : S.Wrote s id x s') (hid : id ≠ 0) :
    S.ShowsRest s' (d.set id x) where
  memory := by rw [hw.memory, h.memory, d.memory_set]
  zero := by rw [hw.other 0 (by decide) hid.symm, h.zero]
  reg := by
    intro id' hid' hlt' hpc'
    rw [d.reg_set x hid]
    split_ifs with hne
    · rw [hne, hw.self]
    · rw [hw.other id' hlt' hne, h.reg hid' hlt' hpc']

theorem Shows.set (h : S.Shows s d) (hw : S.Wrote s id x s') (hid : id ≠ 0) :
    S.Shows s' (d.set id x) where
  toShowsRest := h.toShowsRest.set hw hid
  pc := by
    rw [d.reg_set x hid]
    split_ifs with hne
    · rw [hne, hw.self]
    · rw [hw.other _ (by decide) hne, h.pc]

theorem Shows.setPc (h : S.Shows s d) (hw : S.Wrote s Register.pc x s') : S.ShowsRest s' d where
  memory := hw.memory.trans h.memory
  zero := by rw [hw.other 0 (by decide) (by decide), h.zero]
  reg := by
    intro id hid hlt hpc
    rw [hw.other id hlt hpc, h.reg hid hlt hpc]

theorem Shows.access (h : S.Shows s d) (hcells : S.cells s' = S.cells s) :
    S.Shows s' { d with memory := S.memory s' } where
  memory := rfl
  zero := by rw [hcells, h.zero]
  reg := by
    intro id hid hlt hpc
    rw [hcells]
    exact h.reg hid hlt hpc
  pc := by
    rw [hcells]
    exact h.pc

variable {a : Build α} {g : α → Build β} {mid mid' : α → Core S.width.bits μ → Prop}
  {post : β → Core S.width.bits μ → Prop} {stopped : Prop}

theorem Acts.mono (ha : S.Acts a d mid) (h : ∀ x d', mid x d' → mid' x d') : S.Acts a d mid' := by
  intro s hs
  refine (ha s hs).mono ?_
  rintro x b ⟨s', ⟨d', hpost, hs'⟩, hb⟩
  exact ⟨s', ⟨d', h x d' hpost, hs'⟩, hb⟩

theorem Acts.bind [∀ x, Keeps (g x)] (ha : S.Acts a d mid)
    (hg : ∀ x d', mid x d' → S.Acts (g x) d' post) : S.Acts (a >>= g) d post := by
  intro s hs
  refine (ha s hs).bind ?_
  rintro x s' ⟨d', hmid, hs'⟩
  exact hg x d' hmid s' hs'

section Computes

variable {a : Build Value} {g : Value → Build β} [∀ v, Keeps (g v)] {x : BitVec t.bits}
  (ha : S.Computes a d t x)
include ha

theorem Computes.acts (hg : ∀ v, v.Holds S.course.values t x → S.Acts (g v) d post) :
    S.Acts (a >>= g) d post := by
  intro s hs
  exact (ha s hs).bind fun v hv => hg v hv s hs

theorem Computes.tries (hg : ∀ v, v.Holds S.course.values t x → S.Tries (g v) d stopped post) :
    S.Tries (a >>= g) d stopped post := by
  intro s hs
  exact (ha s hs).bind fun v hv => hg v hv s hs

end Computes

theorem Computes.bind {a : Build Value} {g : Value → Build Value} [∀ v, Keeps (g v)]
    {x : BitVec t.bits} {y : BitVec u.bits} (ha : S.Computes a d t x)
    (hg : ∀ v, v.Holds S.course.values t x → S.Computes (g v) d u y) :
    S.Computes (a >>= g) d u y := by
  intro s hs
  unfold Course.Yields Course.Does
  exact (ha s hs).bind fun v hv => hg v hv s hs

theorem Acts.tries (ha : S.Acts a d mid) (stopped : Prop) : S.Tries a d stopped mid :=
  fun s hs => (ha s hs).tries stopped

theorem Tries.mono {stopped' : Prop} (ha : S.Tries a d stopped mid) (hstop : stopped → stopped')
    (h : ∀ x d', mid x d' → mid' x d') : S.Tries a d stopped' mid' := by
  intro s hs
  refine (ha s hs).mono ?_
  rintro x b (hstopped | ⟨s', ⟨d', hpost, hs'⟩, hb⟩)
  · exact Or.inl (hstop hstopped)
  · exact Or.inr ⟨s', ⟨d', h x d' hpost, hs'⟩, hb⟩

theorem Tries.bind [∀ x, Keeps (g x)] (ha : S.Tries a d stopped mid)
    (hg : ∀ x d', mid x d' → S.Acts (g x) d' post) : S.Tries (a >>= g) d stopped post := by
  intro s hs
  refine (ha s hs).bind ?_ fun hstopped _ _ => Or.inl hstopped
  rintro x s' ⟨d', hmid, hs'⟩
  exact (hg x d' hmid s' hs').tries stopped

theorem acts_pure {x : α} (h : mid x d) : S.Acts (pure x : Build α) d mid :=
  fun _ hs => Course.does_pure ⟨d, h, hs⟩

theorem computes_pure {v : Value} {x : BitVec t.bits} (hv : v.Holds S.course.values t x) :
    S.Computes (pure v) d t x :=
  fun _ _ => Course.yields_pure hv

section Operations

variable {x y : Value} {a b : BitVec t.bits} (ht : t.IsScalar)
  (hx : x.Holds S.course.values t a)
include ht hx

theorem computes_binop (op : BinOp) (hy : y.Holds S.course.values t b) :
    S.Computes (binop op x y) d t (op.onBits a b) :=
  fun _ _ => Course.yields_binop ht hx op hy

theorem computes_icmp (op : CmpOp) (hy : y.Holds S.course.values t b) :
    S.Computes (icmp op x y) d Ty.i1 (Ty.i1.low (Eval.ofBool (op.onBits a b))) :=
  fun _ _ => Course.yields_icmp ht hx op hy

theorem computes_not : S.Computes (Builder.not x) d t (~~~a) :=
  fun _ _ => Course.yields_not ht hx

theorem computes_cvt (op : CvtOp) (hu : u.IsScalar) :
    S.Computes (cvt op u x) d u (op.onBits u.bits a) :=
  fun _ _ => Course.yields_cvt ht hx op hu

end Operations

section Registers

variable (hS : S.Sound) (hid : id ≠ 0) (hlt : id < Register.count)
include hS

theorem Sound.bits_le : S.width.bits ≤ 8 * S.width.accessBytes ∧ S.width.accessBytes ≤ 8 := by
  rcases hS.bound.width with h | h <;> rw [h] <;> decide

include hid hlt

theorem Sound.binding_ty : (S.course.space.binding id).ty = S.width := by
  rw [hS.bound.binding hid hlt]

theorem Sound.low_register (s : σ) :
    S.width.low (S.course.world.register S.course.space s id) =
      S.state.view S.width (S.cells s) id := by
  have hbits := hS.bits_le
  rw [World.register, hS.readCell, hS.bound.binding hid hlt]
  exact S.state.low_read_cell hbits.1 hbits.2 id

theorem computes_read (hpc : id ≠ pc) :
    S.Computes (read id S.width) d S.width (d.get id) := by
  intro s hs
  have hyields := Course.yields_read (r := S.course) (s := s) (hS.bound.isBound hid hlt)
    (by rw [hS.binding_ty hid hlt]; exact hS.bound.isScalar)
  have hreg : d.get id = S.width.low (S.course.world.register S.course.space s id) := by
    rw [hS.low_register hid hlt, hs.reg hid hlt hpc, d.get_of_ne hid]
  rw [hreg]
  rwa [hS.binding_ty hid hlt] at hyields

variable {v : Value} (hv : v.Holds S.course.values S.width x)
include hv

theorem does_write :
    S.course.Does (write id v) s fun _ s' => S.Wrote s id x s' := by
  have hbits := hS.bits_le
  have hbinding := hS.bound.binding hid hlt
  refine (Course.does_write (hS.bound.isBound hid hlt)
    (hv.ty.trans (hS.binding_ty hid hlt).symm)).mono ?_
  rintro _ b ⟨s', rfl, hb⟩
  refine ⟨_, ⟨hS.memory_writeCell _ _ _ _, ?_, ?_⟩, hb⟩
  · rw [hS.cells_writeCell, hbinding, S.state.view_write_self hbits.1 hbits.2, hv.low]
  · intro id' hlt' hne
    rw [hS.cells_writeCell, hbinding, S.state.view_write_of_ne hbits.2 hlt hlt' hne]

theorem acts_write : S.Acts (write id v) d fun _ d' => d' = d.set id x := by
  intro s hs
  refine (does_write hS hid hlt hv).mono ?_
  rintro _ b ⟨s', hwrote, hb⟩
  exact ⟨s', ⟨_, rfl, hs.set hwrote hid⟩, hb⟩

end Registers

theorem computes_read_zero (hS : S.Sound) : S.Computes (read 0 S.width) d S.width 0 :=
  fun _ _ => Course.yields_read_unbound hS.bound.not_isBound_zero hS.bound.isScalar

section Memory

variable (hS : S.Sound) {x v : Value} {a : BitVec Ty.i64.bits}
  (hx : x.Holds S.course.values Ty.i64 a)
include hS hx

theorem tries_load (ht : t.IsScalar) :
    S.Tries (load t x) d (∃ memory, S.board.bus.load d.memory t.accessBytes ⟨a⟩ = (none, memory) ∧
        S.Refused (.loadFault ⟨a⟩, { d with memory })) fun v d' => ∃ y memory,
      S.board.bus.load d.memory t.accessBytes ⟨a⟩ = (some y, memory) ∧
        v.Holds S.course.values t (t.low y) ∧ d' = { d with memory } := by
  intro s hs
  have hbus := hS.load s t.accessBytes ⟨a⟩
  have hcells := hS.cells_load s t.accessBytes ⟨a⟩
  rw [hs.memory] at hbus
  refine (Course.tries_load ht hx).mono ?_
  rintro v b (⟨hstopped, hload⟩ | ⟨s', ⟨y, hload, hv⟩, hb⟩)
  · rw [hload] at hbus hcells
    exact Or.inl ⟨_, hbus, hstopped, hs.access hcells⟩
  · rw [hload] at hbus hcells
    exact Or.inr ⟨s', ⟨_, ⟨y, _, hbus, hv, rfl⟩, hs.access hcells⟩, hb⟩

theorem tries_store (hv : v.ty = t) :
    S.Tries (store x v) d (∃ memory, S.board.bus.store d.memory t.accessBytes ⟨a⟩
          (v.eval S.course.values) = (false, memory) ∧
        S.Refused (.storeFault ⟨a⟩, { d with memory })) fun _ d' => ∃ memory,
      S.board.bus.store d.memory t.accessBytes ⟨a⟩ (v.eval S.course.values) = (true, memory) ∧
        d' = { d with memory } := by
  intro s hs
  have hbus := hS.store s t.accessBytes ⟨a⟩ (v.eval S.course.values)
  have hcells := hS.cells_store s t.accessBytes ⟨a⟩ (v.eval S.course.values)
  rw [hs.memory] at hbus
  refine (Course.tries_store hx hv).mono ?_
  rintro _ b (⟨hstopped, hstore⟩ | ⟨s', hstore, hb⟩)
  · rw [hstore] at hbus hcells
    exact Or.inl ⟨_, hbus, hstopped, hs.access hcells⟩
  · rw [hstore] at hbus hcells
    exact Or.inr ⟨s', ⟨_, ⟨_, hbus, rfl⟩, hs.access hcells⟩, hb⟩

end Memory

end Scene

end Guest

end Dynarec
