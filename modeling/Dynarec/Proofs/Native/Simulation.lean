import Dynarec.Proofs.Graph.Trace
import Dynarec.Proofs.Native.Accesses
import Dynarec.Proofs.Native.Division
import Dynarec.Proofs.Native.Homes
import Dynarec.Proofs.Native.Stack

/-!
# Native code follows a run

A run of a graph and the processor work on copies of one memory. `Follows` compares the two: outside the
stack the memories are the same, and every variable that is still needed is in its home. An instruction
has an `Effect` on the processor that keeps this: it sets one home, or it writes where the run writes.
-/
namespace Dynarec

open Run List

variable {k n : Nat} {h : Homes} {g : Graph} {p : Place} {ev : List RunEvent}

/-- A world that is one memory: registers are cells in it, and the bus goes to it. -/
def Memory.world : World Memory where
  readCell m cell n := m.read cell n
  writeCell m cell n x := m.write cell n x
  load m n addr := (some (m.read addr n), m)
  store m n addr x := (true, m.write addr n x)
  call _ := none

theorem Memory.write_apply_congr {m m' : Memory} {a b : UInt64} {x : UInt64} (h : m b = m' b) :
    m.write a n x b = m'.write a n x b := by
  have hset : ∀ (xs : List UInt8) (m m' : Memory) (a : UInt64), m b = m' b →
      m.setRange a xs b = m'.setRange a xs b := by
    intro xs
    induction xs with
    | nil => exact fun _ _ _ h => h
    | cons y xs ih =>
      intro m m' a h
      refine ih _ _ _ ?_
      by_cases hb : b = a
      · simp [hb]
      · simpa [hb] using h
  exact hset _ m m' a h

/-- The addresses that an event of the bus touches. -/
def RunEvent.span : RunEvent → Set UInt64
  | load n a _ | store n a _ _ => Dynarec.span a n
  | call _ _ _ => ∅

def Graph.Uses (g : Graph) (reg : Int) : Prop :=
  ∃ i ∈ g.instrs, i.op = .read reg ∨ ∃ x, i.op = .write reg x

/-- The bytes of the registers that a graph reads or writes. -/
def Graph.cells (g : Graph) (w : Workspace) : Set UInt64 :=
  { a | ∃ reg, g.Uses reg ∧ a ∈ span (w.binding reg).cell (w.binding reg).ty.accessBytes }

namespace Native

open Machine

variable {id disp u v reg : Int} {x a y : UInt64}

/-- A call of the code of a graph: what the code was made from, and the state in which it is entered. -/
structure Invocation where
  workspace : Workspace
  graph : Graph
  homes : Homes
  state : State

namespace Invocation

variable (K : Invocation)

def sp : UInt64 := K.state.regs .rsp

def frame : Nat := K.homes.frameSize

/-- Where the frame ends and the saved registers begin. -/
def base : UInt64 := K.sp - 48

def bottom : UInt64 := K.base - K.frame.toUInt64

/-- The frame, the saved registers and the return address. -/
def stack : Set UInt64 := span K.bottom (K.frame + 56)

def cells : Set UInt64 := K.graph.cells K.workspace

/-- What is accessed here is not seen on the bus. -/
def hidden : Set UInt64 := K.stack ∪ K.cells

/-- What a call needs: homes for the variables, a frame that is not too large, bound registers, and no
calls and slots. -/
structure Proper : Prop where
  sound : K.homes.Sound K.graph
  small : K.frame + 48 < 2 ^ 31
  plain : ∀ i ∈ K.graph.instrs, (∀ t, i.op ≠ .alloc t) ∧ ∀ target params, i.op ≠ .call target params
  bound : ∀ reg, K.graph.Uses reg → (K.workspace.binding reg).isBound = true
  apart : Disjoint K.stack K.cells

/-- An event that touches neither the stack nor a register. -/
def Clear (e : RunEvent) : Prop := Disjoint e.span K.hidden

end Invocation

section Frame

variable {sp : UInt64} {s : State}

theorem Homes.le_frameSize (h : Homes) : h.frame ≤ h.frameSize := by
  unfold frameSize
  omega

/-- How far above the bottom of the frame a displacement from the frame pointer leads. -/
def Homes.offset (h : Homes) (disp : Int) : Nat :=
  (savedSize + h.frameSize + disp).toNat

theorem Homes.Sound.offset_le (hsound : h.Sound g) (hget : h.get id = .spill disp n) :
    h.offset disp + n ≤ h.frameSize := by
  obtain ⟨hlow, hhigh⟩ := hsound.inside (congrArg Home.range? hget)
  have hle := h.le_frameSize
  unfold offset
  omega

variable (hsound : h.Sound g) (hsmall : h.frameSize + 48 < 2 ^ 31) (hrbp : s.regs .rbp = sp - 8)

include hsound hsmall hrbp

theorem Homes.Sound.address_frameMem (hget : h.get id = .spill disp n) :
    s.address (frameMem disp) = sp - 48 - h.frameSize.toUInt64 + (h.offset disp).toUInt64 := by
  obtain ⟨hlow, hhigh⟩ := hsound.inside (congrArg Home.range? hget)
  have hle := h.le_frameSize
  have hsaved : savedSize = 40 := rfl
  rw [hsaved] at hlow hhigh
  show s.regs .rbp + (Int32.ofInt disp).toInt64.toUInt64 = _
  rw [hrbp, word_ofInt (by omega) (by omega), offset, hsaved]
  have hdisp : UInt64.ofInt disp = (40 + (h.frameSize : Int) + disp).toNat.toUInt64 -
      h.frameSize.toUInt64 - 40 := by
    apply UInt64.toNat_inj.mp
    rw [UInt64.toNat_sub, UInt64.toNat_sub, Nat.toUInt64_eq, Nat.toUInt64_eq, UInt64.toNat_ofNat',
      UInt64.toNat_ofNat', UInt64.ofInt, UInt64.toNat_ofNat', show (40 : UInt64).toNat = 40 by rfl]
    omega
  rw [hdisp]
  grind

theorem Homes.Sound.span_subset (id : Int) :
    (h.get id).span s ⊆ span (sp - 48 - h.frameSize.toUInt64) h.frameSize := by
  cases hget : h.get id with
  | reg | slot | none => exact Set.empty_subset _
  | spill disp n =>
    rw [Home.span, hsound.address_frameMem hsmall hrbp hget]
    exact span_add_subset (hsound.offset_le hget) (by omega)

theorem Homes.Sound.span_disjoint (hne : u ≠ v) :
    Disjoint ((h.get u).span s) ((h.get v).span s) := by
  cases hu : h.get u with
  | reg | slot | none => exact Set.empty_disjoint _
  | spill disp n =>
    cases hv : h.get v with
    | reg | slot | none => exact Set.disjoint_empty _
    | spill disp' n' =>
      have hle := hsound.offset_le hu
      have hle' := hsound.offset_le hv
      have hlow := (hsound.inside (congrArg Home.range? hu)).1
      have hlow' := (hsound.inside (congrArg Home.range? hv)).1
      have hframe := h.le_frameSize
      rw [Home.span, Home.span, hsound.address_frameMem hsmall hrbp hu,
        hsound.address_frameMem hsmall hrbp hv]
      unfold offset at hle hle' ⊢
      rcases hsound.disjoint hne (congrArg Home.range? hu) (congrArg Home.range? hv) with
        hbefore | hafter
      · exact span_add_disjoint (by omega) (by omega)
      · exact (span_add_disjoint (by omega) (by omega)).symm

end Frame

section Stack

variable {K : Invocation} {s : State}

theorem Invocation.base_eq (K : Invocation) : K.base = K.bottom + K.frame.toUInt64 := by
  rw [bottom, UInt64.sub_add_cancel]

theorem Invocation.frame_subset (K : Invocation) : span K.bottom K.frame ⊆ K.stack :=
  span_subset_of_le (by omega)

variable (hK : K.Proper)

include hK

theorem Invocation.savedSpan_subset : savedSpan K.base ⊆ K.stack := by
  have hsmall := hK.small
  rw [savedSpan, K.base_eq]
  exact span_add_subset le_rfl (by omega)

variable (hrbp : s.regs .rbp = K.sp - 8)

include hrbp

theorem Invocation.span_subset (id : Int) :
    (K.homes.get id).span s ⊆ span K.bottom K.frame :=
  hK.sound.span_subset hK.small hrbp id

theorem Invocation.span_disjoint_saved (id : Int) :
    Disjoint ((K.homes.get id).span s) (savedSpan K.base) := by
  have hsmall := hK.small
  refine Set.disjoint_of_subset_left (span_subset hK hrbp id) ?_
  rw [savedSpan, K.base_eq]
  exact span_disjoint_add le_rfl (by omega)

theorem Invocation.span_disjoint (hne : u ≠ v) :
    Disjoint ((K.homes.get u).span s) ((K.homes.get v).span s) :=
  hK.sound.span_disjoint hK.small hrbp hne

theorem Invocation.framed : K.homes.Framed K.hidden s := by
  refine ⟨hK.sound.pool, fun {id disp n} hget => ?_⟩
  have hin := (span_subset hK hrbp id).trans K.frame_subset
  rw [hget] at hin
  exact hin.trans Set.subset_union_left

end Stack

open Run (Point Sane Reaches)

/-- The world of runs that are followed: one memory and a log of the bus. -/
abbrev Traced := Memory × List RunEvent

section Follows

/-- The processor in state `s` has come to where a run is that has gone through the places `past`. -/
structure Follows (K : Invocation) (past : List Place) (c : Point Traced) (s : State) : Prop where
  slots : c.frame.slots = #[]
  memory : ∀ a ∉ K.stack, s.memory a = c.state.1 a
  /-- Homes hold the variables that are still needed. -/
  vars : ∀ {q v t}, q ∈ past → K.graph.DefinesAt q v t →
    index K.graph c.place ≤ K.homes.lives.endOf v.toNat →
    ∃ x, entryAt? c.frame.vars v = some x ∧ (K.homes.get v).Holds s x
  rbp : s.regs .rbp = K.sp - 8
  saved : Saved s.memory K.base K.state.regs (K.state.memory.read K.sp 8)
  moves : Moves K.hidden c.state.2 K.state s

/-- What an instruction has done to the processor when the run goes on with frame `f` and memory and
log `m`. -/
structure Effect (K : Invocation) (i : Dynarec.Instr) (c : Point Traced) (f : Frame) (m : Traced)
    (s s' : State) : Prop where
  slots : f.slots = c.frame.slots
  unset : i.hasResult = false → f.vars = c.frame.vars
  set : i.hasResult = true → ∃ x, f.vars = c.frame.vars.setIfInBounds i.res.toNat x ∧
    (K.homes.get i.res).Holds s' x
  regs : ∀ r ∉ scratch, (i.hasResult = true → K.homes.get i.res ≠ .reg r) → s'.regs r = s.regs r
  stack : ∀ a ∈ K.stack, (i.hasResult = true → a ∉ (K.homes.get i.res).span s) →
    s'.memory a = s.memory a
  memory : ∀ a ∉ K.stack, s'.memory a = m.1 a
  moves : ∃ ev, m.2 = c.state.2 ++ ev ∧ Moves K.hidden ev s s'

variable {K : Invocation} {T : K.graph.Typed} {past : List Place} {c : Point Traced}
  {i : Dynarec.Instr} {f : Frame} {m : Traced} {s s' : State}

theorem Effect.rbp (he : Effect K i c f m s s') (hK : K.Proper) : s'.regs .rbp = s.regs .rbp := by
  refine he.regs .rbp (by decide) fun _ hres => ?_
  exact absurd (hK.sound.pool hres) (by decide)

/-- The home of a variable that is still needed behind an instruction is not the one that is set. -/
theorem Effect.holds (he : Effect K i c f m s s') (hK : K.Proper) (hrbp : s.regs .rbp = K.sp - 8)
    (hi : K.graph.instrAt? c.place = some i) {t : Ty} (hp : K.graph.DefinesAt p v t)
    (hbefore : p.Before c.place) (hne : i.hasResult = true → v ≠ i.res)
    (hlive : index K.graph c.place < K.homes.lives.endOf v.toNat) (hx : (K.homes.get v).Holds s x) :
    (K.homes.get v).Holds s' x := by
  cases hget : K.homes.get v with
  | slot | none => rwa [hget] at hx
  | reg r =>
    rw [hget] at hx
    refine (he.regs r (notMem_scratch (hK.sound.pool hget)) fun hyes hres => ?_).trans hx
    have hle := hK.sound.apart hbefore hp ⟨i, hi, hyes, rfl, rfl⟩ hget hres
    omega
  | spill disp n =>
    have hin := (Invocation.span_subset hK hrbp v).trans K.frame_subset
    have hout : i.hasResult = true → Disjoint ((K.homes.get v).span s) ((K.homes.get i.res).span s) :=
      fun hyes => Invocation.span_disjoint hK hrbp (hne hyes)
    rw [hget] at hx hin hout
    have hread : s'.memory.read (s.address (frameMem disp)) n =
        s.memory.read (s.address (frameMem disp)) n :=
      Memory.read_congr fun a ha =>
        he.stack a (hin ha) fun hyes => Set.disjoint_left.mp (hout hyes) ha
    simp only [Home.Holds] at hx ⊢
    rw [address_frameMem_of_eq (he.rbp hK), hread, hx]

/-- The processor keeps following a run over one instruction. -/
theorem Follows.next (hf : Follows K past c s) (hK : K.Proper) (S : Sane T past c)
    (hi : K.graph.instrAt? c.place = some i) (he : Effect K i c f m s s') {q : Place}
    (hq : c.place.Before q) : Follows K (past ++ [c.place]) ⟨q, f, m⟩ s' where
  slots := he.slots.trans hf.slots
  memory := he.memory
  rbp := (he.rbp hK).trans hf.rbp
  moves := by
    obtain ⟨ev, hev, hmoves⟩ := he.moves
    rw [hev]
    exact hf.moves.trans hmoves
  saved := by
    refine hf.saved.congr fun a ha => he.stack a (Invocation.savedSpan_subset hK ha) fun _ hin => ?_
    exact Set.disjoint_left.mp (Invocation.span_disjoint_saved hK hf.rbp i.res) hin ha
  vars := by
    intro p v t hp hpv hlive
    have hindex := index_lt hi hq
    simp only at hlive
    rcases mem_append.mp hp with hp | hp
    · -- a variable from before: only the instruction itself sets its own variable
      obtain ⟨x, hx, hholds⟩ := hf.vars hp hpv (by omega)
      have hbefore := S.ascending.2 p hp
      have hne : i.hasResult = true → v ≠ i.res := by
        rintro hyes rfl
        obtain rfl := T.defines_unique hpv ⟨i, hi, hyes, rfl, rfl⟩
        exact Place.Before.irrefl _ hbefore
      refine ⟨x, ?_, he.holds hK hf.rbp hi hpv hbefore hne (by omega) hholds⟩
      cases hyes : i.hasResult with
      | false => rw [he.unset hyes, hx]
      | true =>
        obtain ⟨y, hy, -⟩ := he.set hyes
        obtain ⟨hnat, hget⟩ := entryAt?_eq_some hx
        have hres := ((S.ready hi).result hyes).1
        have hdiff : i.res.toNat ≠ v.toNat := fun heq => hne hyes (by omega)
        rw [hy, hnat, entryAt?_natCast, Array.getElem?_setIfInBounds, if_neg hdiff, hget]
    · rw [mem_singleton] at hp
      subst hp
      obtain ⟨j, hj, hyes, rfl, -⟩ := hpv
      cases hi.symm.trans hj
      obtain ⟨x, hvars, hholds⟩ := he.set hyes
      obtain ⟨hnat, hlt⟩ := (S.ready hi).result hyes
      refine ⟨x, ?_, hholds⟩
      generalize i.res.toNat = n at hvars hnat hlt
      rw [hvars, hnat, entryAt?_natCast, Array.getElem?_setIfInBounds, if_pos rfl, if_pos hlt]

section Effects

theorem effect_settles (hf : Follows K past c s) (hK : K.Proper) (hyes : i.hasResult = true)
    (hs : Settles K.hidden ev (K.homes.get i.res) x s s') :
    Effect K i c { c.frame with vars := c.frame.vars.setIfInBounds i.res.toNat x }
      (c.state.1, c.state.2 ++ ev) s s' where
  slots := rfl
  unset hno := by simp [hyes] at hno
  set _ := ⟨x, rfl, hs.holds⟩
  regs r hr hne := hs.regs r hr (hne hyes)
  stack a _ hout := hs.memory a (hout hyes)
  memory a ha := by
    rw [hs.memory a fun hin => ha ((Invocation.span_subset hK hf.rbp i.res).trans K.frame_subset hin)]
    exact hf.memory a ha
  moves := ⟨ev, rfl, hs.moves⟩

theorem effect_works (hf : Follows K past c s) (hno : i.hasResult = false)
    (hw : Works K.hidden s s') : Effect K i c c.frame c.state s s' where
  slots := rfl
  unset _ := rfl
  set hyes := by simp [hno] at hyes
  regs r hr _ := hw.regs r hr
  stack a _ _ := by rw [hw.memory]
  memory a ha := by rw [hw.memory]; exact hf.memory a ha
  moves := ⟨[], (append_nil _).symm, hw.moves⟩

theorem effect_writes (hf : Follows K past c s) (hno : i.hasResult = false)
    (hw : Writes K.hidden ev a n x s s') (hout : Disjoint (span a n) K.stack) :
    Effect K i c c.frame (c.state.1.write a n x, c.state.2 ++ ev) s s' where
  slots := rfl
  unset _ := rfl
  set hyes := by simp [hno] at hyes
  regs r hr _ := hw.regs r hr
  stack b hb _ := by
    rw [hw.memory]
    exact Memory.write_of_notMem (Set.disjoint_right.mp hout hb) x
  memory b hb := by
    rw [hw.memory]
    exact Memory.write_apply_congr (hf.memory b hb)
  moves := ⟨ev, rfl, hw.moves⟩

end Effects

section Operands

theorem settle_next {σ : Type} {f f' : Frame} {m m' : σ} (hyes : i.hasResult = true)
    (hstep : settle i f m x = .next f' m')
    : f' = { f with vars := f.vars.setIfInBounds i.res.toNat (x &&& i.ty.mask) } ∧ m' = m := by
  unfold settle Frame.assign at hstep
  rw [hyes] at hstep
  simp only [Bool.not_true, Bool.false_eq_true, if_false] at hstep
  split_ifs at hstep
  cases hstep
  exact ⟨rfl, rfl⟩

/-- Operands have words that fit, and the processor has them too. -/
theorem Follows.operand (hf : Follows K past c s) (hK : K.Proper) (S : Sane T past c)
    (hi : K.graph.instrAt? c.place = some i) {v : Value} (hv : v ∈ i.op.operands) :
    ∃ x, c.frame.value? v = some x ∧ Carries K.homes s x v ∧ v.ty.IsScalar ∧ v.ty.Fits x := by
  cases v with
  | const t x =>
    obtain ⟨defs, hdefs⟩ := S.stands
    obtain ⟨mid, hmid, -, -⟩ := hdefs.next hi
    obtain ⟨hscalar, hfits⟩ := (Typing.checkInstr_ok.mp hmid).1 _ hv
    exact ⟨x, rfl, rfl, hscalar, hfits⟩
  | var t id =>
    obtain ⟨p, hp, hdef⟩ := S.defined hi hv
    obtain ⟨x, hx, hholds⟩ := hf.vars hp hdef (hK.sound.alive hi hv)
    obtain ⟨y, hy, hfits⟩ := S.fits hdef
    cases hx.symm.trans hy
    exact ⟨x, hx, hholds, (T.defines_fresh hdef).1, hfits⟩

theorem Homes.Sound.houses (hsound : h.Sound g) (hi : g.instrAt? p = some i)
    (hyes : i.hasResult = true) (hop : ∀ t, i.op ≠ .alloc t) : h.Houses i := by
  rcases (Home.suits_of_not_alloc hop).mp (hsound.settled hi hyes) with ⟨r, hr⟩ | ⟨disp, hdisp⟩
  · exact ⟨by rw [hr]; trivial, fun h => by rw [hr] at h; cases h⟩
  · exact ⟨by rw [hdisp]; trivial, fun h => by rw [hdisp] at h; cases h; rfl⟩

theorem mem_instrs (hi : g.instrAt? p = some i) : i ∈ g.instrs :=
  mem_of_getElem? (instrs_index hi)

theorem Invocation.houses (hK : K.Proper) (hi : K.graph.instrAt? p = some i)
    (hyes : i.hasResult = true) : K.homes.Houses i :=
  hK.sound.houses hi hyes (hK.plain i (mem_instrs hi)).1

end Operands

section Steps

variable {code : Code}

/-- The result of an instruction is cut to its type and goes to its home. -/
theorem effect_settle (hf : Follows K past c s) (hK : K.Proper) (hyes : i.hasResult = true)
    (hrun : ∃ s', Runs code s [] s' ∧ Settles K.hidden ev (K.homes.get i.res) y s s')
    (hy : x &&& i.ty.mask = y)
    (hstep : settle i c.frame (c.state.1, c.state.2 ++ ev) x = .next f m) :
    ∃ s', Runs code s [] s' ∧ Effect K i c f m s s' := by
  obtain ⟨s', hruns, hsettles⟩ := hrun
  obtain ⟨rfl, rfl⟩ := settle_next hyes hstep
  rw [hy]
  exact ⟨s', hruns, effect_settles hf hK hyes hsettles⟩

theorem effect_pure (hf : Follows K past c s) (hK : K.Proper) (hyes : i.hasResult = true)
    (hrun : ∃ s', Runs code s [] s' ∧ Settles K.hidden [] (K.homes.get i.res) y s s')
    (hy : x &&& i.ty.mask = y) (hstep : settle i c.frame c.state x = .next f m)
    : ∃ s', Runs code s [] s' ∧ Effect K i c f m s s' := by
  refine effect_settle hf hK hyes hrun hy ?_
  rwa [append_nil]

theorem runs_binop {F : Set UInt64} {w : Workspace} {op : BinOp} {u v : Value}
    (hop : i.op = .binop op u v) (hf : h.Framed F s) (hh : h.Houses i) (ht : i.ty.IsScalar)
    (hsupported : Select.unsupported w i = none) (hcode : Select.code h w k i = .ok code)
    (hu : Carries h s x u) (hv : Carries h s y v) (hx : i.ty.Fits x) (hy : i.ty.Fits y) :
    ∃ s', Runs code s [] s' ∧ Settles F [] (h.get i.res) (Eval.binop op i.ty x y) s s' := by
  simp only [Select.code, hop] at hcode
  simp only [Select.unsupported, hop] at hsupported
  by_cases hdiv : op.isDivision = true
  · rw [if_pos hdiv] at hcode
    have hty : i.ty = .i32 ∨ i.ty = .i64 := by
      by_contra hno
      rw [not_or] at hno
      simp [hdiv, hno.1, hno.2] at hsupported
    exact runs_division hf hh hty hdiv hcode hu hv
  · rw [if_neg hdiv] at hcode
    split_ifs at hcode with hshift
    · exact runs_shift hf hh ht hshift hcode hu hv hx hy
    · exact runs_arithmetic hf hh ht (by simpa using hshift) (by simpa using hdiv) hcode hu hv hx hy

theorem Follows.read (hf : Follows K past c s) (hout : Disjoint (span a n) K.stack) :
    s.memory.read a n = c.state.1.read a n :=
  Memory.read_congr fun b hb => hf.memory b (Set.disjoint_left.mp hout hb)

theorem Invocation.cell_subset (huse : K.graph.Uses reg)
    : span (K.workspace.binding reg).cell (K.workspace.binding reg).ty.accessBytes ⊆ K.cells :=
  fun _ ha => ⟨reg, huse, ha⟩

theorem Invocation.cell_disjoint (hK : K.Proper) (huse : K.graph.Uses reg) :
    Disjoint (span (K.workspace.binding reg).cell (K.workspace.binding reg).ty.accessBytes) K.stack :=
  Set.disjoint_of_subset_left (cell_subset huse) hK.apart.symm

theorem Invocation.Clear.stack {e : RunEvent} (he : K.Clear e) : Disjoint e.span K.stack :=
  Set.disjoint_of_subset_right Set.subset_union_left he

theorem effect_of_step (hf : Follows K past c s) (hK : K.Proper) (S : Sane T past c)
    (hi : K.graph.instrAt? c.place = some i)
    (hcode : Layout.instrCode K.workspace K.homes k i = .ok code)
    (hstep : c.step Memory.world.traced K.workspace K.graph i = .next f m)
    (hclear : ∀ e ∈ m.2, K.Clear e) : ∃ s', Runs code s [] s' ∧ Effect K i c f m s s' := by
  obtain ⟨hsupported, hcode⟩ := instrCode_ok hcode
  have hshape := T.checkShape_ok hi
  have hframed := Invocation.framed hK hf.rbp
  have hhouses := Invocation.houses hK hi
  have hscalar : i.hasResult = true → i.ty.IsScalar :=
    fun hyes => (T.defines_fresh ⟨i, hi, hyes, rfl, rfl⟩).1
  have hin := mem_instrs hi
  obtain ⟨op, ty, res⟩ := i
  have hoperand {v : Value} (hv : v ∈ op.operands) := hf.operand hK S hi hv
  cases op with
  | exit | unknown tag => cases hstep
  | br cond ifFalse ifTrue =>
    obtain ⟨x, hx, -⟩ := hoperand mem_cons_self
    simp only [Point.step, step, hx] at hstep
    exact absurd hstep (Trace.jump_ne_next _ _ _ _ _ _)
  | call target params => exact absurd rfl ((hK.plain _ hin).2 target params)
  | alloc t => exact absurd rfl ((hK.plain _ hin).1 t)
  | assert v =>
    obtain ⟨x, hx, hcarries, -, hfits⟩ := hoperand mem_cons_self
    have hty : v.ty = .i1 := by
      by_contra hne
      simp [Typing.checkShape, hne] at hshape
    rw [hty] at hfits
    simp only [Point.step, step, hx] at hstep
    obtain ⟨s', hrun, hworks⟩ := runs_assert hframed hcode hcarries hfits
    split_ifs at hstep hrun with hzero
    · cases hstep
    · cases hstep
      exact ⟨s', hrun, effect_works hf rfl hworks⟩
  | not v =>
    obtain ⟨x, hx, hcarries, -, -⟩ := hoperand mem_cons_self
    simp only [Point.step, step, hx] at hstep
    exact effect_pure hf hK rfl (runs_not hframed (hhouses rfl) (hscalar rfl) hcode hcarries) rfl hstep
  | binop op u v =>
    obtain ⟨x, hx, hu, -, hfits⟩ := hoperand (v := u) (by simp [Op.operands])
    obtain ⟨y, hy, hv, -, hfits'⟩ := hoperand (v := v) (by simp [Op.operands])
    obtain ⟨hty, hty'⟩ : u.ty = v.ty ∧ u.ty = ty := by
      by_contra hne
      rw [not_and_or] at hne
      simp [Typing.checkShape, hne] at hshape
    simp only [Point.step, step, hx, hy] at hstep
    refine effect_pure hf hK rfl ?_ (Eval.fits_binop op ty x y) hstep
    exact runs_binop rfl hframed (hhouses rfl) (hscalar rfl) hsupported hcode hu hv
      (hty' ▸ hfits) (hty' ▸ hty ▸ hfits')
  | icmp op u v =>
    obtain ⟨x, hx, hu, hut, hfits⟩ := hoperand (v := u) (by simp [Op.operands])
    obtain ⟨y, hy, hv, -, hfits'⟩ := hoperand (v := v) (by simp [Op.operands])
    obtain ⟨hty, hbit⟩ : u.ty = v.ty ∧ ty = .i1 := by
      by_contra hne
      by_cases hty : u.ty = v.ty <;> simp_all [Typing.checkShape]
    simp only [Point.step, step, hx, hy] at hstep
    refine effect_pure hf hK rfl ?_ (hbit ▸ Eval.fits_ofBool _) hstep
    exact runs_compare hframed (hhouses rfl) (hscalar rfl) hut hcode hu hv hfits (hty ▸ hfits')
  | cvt op v =>
    obtain ⟨x, hx, hcarries, hvt, hfits⟩ := hoperand mem_cons_self
    simp only [Point.step, step, hx] at hstep
    exact effect_pure hf hK rfl
      (runs_cvt hframed (hhouses rfl) (hscalar rfl) hvt hcode hcarries hfits) rfl hstep
  | load v =>
    obtain ⟨a, ha, hcarries, -, -⟩ := hoperand mem_cons_self
    simp only [Point.step, step, ha, load,
      Trace.slot?_eq_none hf.slots a (hscalar rfl).bytes_pos] at hstep
    have hsettle : settle ⟨.load v, ty, res⟩ c.frame (c.state.1, c.state.2 ++
        [.load ty.accessBytes a (some (c.state.1.read a ty.accessBytes))])
        (c.state.1.read a ty.accessBytes) = .next f m := hstep
    have hout : Disjoint (span a ty.accessBytes) K.stack := by
      obtain ⟨-, rfl⟩ := settle_next rfl hsettle
      exact (hclear (.load ty.accessBytes a _) (mem_append_right _ mem_cons_self)).stack
    have hrun := runs_loadMem hframed (hhouses rfl) (hscalar rfl) hcode hcarries
    rw [hf.read hout] at hrun
    exact effect_settle hf hK rfl hrun rfl hsettle
  | store u v =>
    obtain ⟨a, ha, hu, -, -⟩ := hoperand (v := u) (by simp [Op.operands])
    obtain ⟨x, hx, hv, ht, hfits⟩ := hoperand (v := v) (by simp [Op.operands])
    simp only [Point.step, step, ha, hx, store,
      Trace.slot?_eq_none hf.slots a ht.bytes_pos] at hstep
    obtain ⟨s', hrun, hwrites⟩ := runs_storeMem hframed ht hcode hu hv hfits
    cases hstep
    have hout := (hclear (.store v.ty.accessBytes a x true)
      (mem_append_right _ mem_cons_self)).stack
    exact ⟨s', hrun, effect_writes hf rfl hwrites hout⟩
  | read reg =>
    have huse : K.graph.Uses reg := ⟨_, hin, Or.inl rfl⟩
    simp only [Point.step, step, hK.bound reg huse] at hstep
    refine effect_pure hf hK rfl (runs_readCell hframed (hhouses rfl) (hscalar rfl)
      ((Invocation.cell_subset huse).trans Set.subset_union_right) hcode) ?_ hstep
    rw [hf.read (Invocation.cell_disjoint hK huse)]
    rfl
  | write reg v =>
    obtain ⟨x, hx, hcarries, -, -⟩ := hoperand mem_cons_self
    have huse : K.graph.Uses reg := ⟨_, hin, Or.inr ⟨v, rfl⟩⟩
    simp only [Point.step, step, hx, hK.bound reg huse] at hstep
    obtain ⟨s', hrun, hwrites⟩ := runs_writeCell hframed
      ((Invocation.cell_subset huse).trans Set.subset_union_right) hcode hcarries
    cases hstep
    have heffect := effect_writes (i := ⟨.write reg v, ty, res⟩) hf rfl hwrites
      (Invocation.cell_disjoint hK huse)
    rw [append_nil] at heffect
    exact ⟨s', hrun, heffect⟩

end Steps

end Follows

end Native

end Dynarec
