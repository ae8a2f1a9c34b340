import Dynarec.Proofs.Graph.Sweep
import Dynarec.Proofs.Host.Memory

/-!
# Simplification keeps the meaning of a graph

A run of the simplified graph goes through the same blocks as a run of the graph itself and does the
same accesses and calls. In front of each instruction the two frames are related through the tables of
the sweep: the value that stands for a variable has its content, and what is known of a register is in
the register. A step of the old graph is no step of the new one if the instruction went away, and one
step otherwise.
-/
namespace Dynarec

open Typing Sweep Eval Run Instr

variable {f f' : Frame} {k n label : Nat} {w : Workspace}

/-- A read or write of a bound register has the type of the binding. -/
def Instr.RegisterTyped (w : Workspace) (i : Instr) : Prop :=
  match i.op with
  | .read r => (w.binding r).isBound = true → i.ty = (w.binding r).ty
  | .write r x => (w.binding r).isBound = true → x.ty = (w.binding r).ty
  | _ => True

namespace Frame

def set (f : Frame) (n : Nat) (x : UInt64) : Frame :=
  { f with vars := f.vars.setIfInBounds n x }

theorem assign_of_hasResult {i : Instr} (hres : i.hasResult = true)
    (hnat : i.res = (i.res.toNat : Int)) (hlt : i.res.toNat < f.vars.size) (x : UInt64) :
    f.assign i x = some (f.set i.res.toNat (x &&& i.ty.mask)) := by
  have hin : ¬ (i.res < 0 ∨ (f.vars.size : Int) ≤ i.res) := by omega
  simp [assign, hres, hin, set]

theorem value?_congr {f f' : Frame} (h : f'.vars = f.vars) (v : Value) : f'.value? v = f.value? v := by
  cases v with
  | const t x => rfl
  | var t id => rw [value?, value?, h]

theorem value?_set_self (h : n < f.vars.size) (t : Ty) (x : UInt64) :
    (f.set n x).value? (.var t n) = some x := by
  simp [value?, set, entryAt?_natCast, h]

theorem value?_set_of_usable {idoms : Idoms} {defs : Defs} {u : Value}
    (hu : Usable idoms defs label u) (hn : defs[n]? = some none) (f : Frame) (x : UInt64) :
    (f.set n x).value? u = f.value? u := by
  cases u with
  | const t y => rfl
  | var t id =>
    obtain ⟨-, at_, hid, -⟩ := hu
    obtain ⟨hnat, hentry⟩ := entryAt?_eq_some hid
    have hne : n ≠ id.toNat := by
      rintro rfl
      rw [hn] at hentry
      simp at hentry
    simp only [value?, set]
    rw [hnat, entryAt?_natCast, entryAt?_natCast, Array.getElem?_setIfInBounds, if_neg hne]

end Frame

/-- Two steps do the same: they end in frames related by `R` and in one state, or fail at
corresponding instructions for the same cause. -/
inductive Step.Matches {σ : Type} (R : Frame → Frame → σ → Prop) (i i' : Instr) :
    Step σ → Step σ → Prop where
  | next {f f' s} (h : R f f' s) : Matches R i i' (.next f s) (.next f' s)
  | jump {c t₀ t₁ t f f' s} (hop : i.op = .br c t₀ t₁) (ht : t = t₀ ∨ t = t₁) (h : R f f' s) :
      Matches R i i' (.jump t.toNat f s) (.jump t.toNat f' s)
  | exited {s : σ} : Matches R i i' (.stop .exited s) (.stop .exited s)
  | failed {c : RunCause} {s : σ} :
      Matches R i i' (.stop (.failed (.at i c)) s) (.stop (.failed (.at i' c)) s)

namespace Sweep

variable {σ : Type} {W : World σ} {idoms : Idoms} {defs defs' mid mid' : Defs} {s s' : Sweep}
  {st : σ} {i i' : Instr} {is is' : List Instr} {u v y : Value} {us vs : List Value} {op : BinOp}
  {t : Ty} {x a b : UInt64}

/-- The frames of the two runs in block `label`. `defs` and `defs'` have the definitions so far, and
`subst` what stands for the old variables. -/
structure Agrees (idoms : Idoms) (label : Nat) (defs defs' : Defs) (subst : Array Value)
    (f f' : Frame) : Prop where
  slots : f'.slots = f.slots
  size : f.vars.size = defs.size
  size' : f'.vars.size = defs'.size
  value : ∀ {v d : Nat} {t u}, defs[v]? = some (some (d, t)) → idoms.dominates d label = true →
    subst[v]? = some u → ∃ x, f.vars[v]? = some x ∧ f'.value? u = some x ∧ t.Fits x

section

variable {subst : Array Value}

theorem Agrees.define (h : Agrees idoms label defs defs' subst f f') (hn : defs[n]? = some none)
    (hsubst : subst.size = defs.size) (hu : f'.value? u = some x) (hx : t.Fits x) :
    Agrees idoms label (defs.setIfInBounds n (some (label, t))) defs' (subst.setIfInBounds n u)
      (f.set n x) f' := by
  have hlt : n < defs.size := (Array.getElem?_eq_some_iff.mp hn).1
  refine ⟨h.slots, by simp [Frame.set, h.size], h.size', ?_⟩
  intro v d t' u' hv hd hu'
  rw [Array.getElem?_setIfInBounds] at hv hu'
  by_cases he : n = v
  · subst he
    simp only [if_true, hlt, hsubst, Option.some.injEq, Prod.mk.injEq] at hv hu'
    obtain ⟨-, rfl⟩ := hv
    subst hu'
    exact ⟨x, by simp [Frame.set, h.size, hlt], hu, hx⟩
  · rw [if_neg he] at hv hu'
    obtain ⟨y, hy, hrest⟩ := h.value hv hd hu'
    exact ⟨y, by simp [Frame.set, he, hy], hrest⟩

theorem Agrees.grow (h : Agrees idoms label defs defs' subst f f') (hn : defs'[n]? = some none)
    (huse : ∀ {v d : Nat} {t u}, defs[v]? = some (some (d, t)) →
      subst[v]? = some u → Usable idoms defs' d u) :
    Agrees idoms label defs (defs'.setIfInBounds n (some (label, t))) subst f (f'.set n x) := by
  refine ⟨h.slots, h.size, by simp [Frame.set, h.size'], ?_⟩
  intro v d t' u hv hd hu
  obtain ⟨y, hy, hy', hfits⟩ := h.value hv hd hu
  exact ⟨y, hy, by rw [Frame.value?_set_of_usable (huse hv hu) hn, hy'], hfits⟩

theorem Agrees.operand (h : Agrees idoms label defs defs' subst f f')
    (hs : s.subst = subst) (hv : Usable idoms defs label v) (hu : s.Replaces v u)
    : ∃ x, f.value? v = some x ∧ f'.value? u = some x ∧ v.ty.Fits x := by
  cases v with
  | const t x =>
    obtain rfl : u = .const t x := hu
    exact ⟨x, rfl, rfl, hv.2⟩
  | var t id =>
    obtain ⟨-, at_, hid, hdom⟩ := hv
    obtain ⟨hnat, hentry⟩ := entryAt?_eq_some hid
    rw [Replaces, hnat, entryAt?_natCast, hs] at hu
    obtain ⟨x, hx, hx', hfits⟩ := h.value hentry hdom hu
    refine ⟨x, ?_, hx', hfits⟩
    rw [Frame.value?, hnat, entryAt?_natCast]
    exact hx

end

/-- `u` has the content of register `r`. -/
structure Holds {σ : Type} (W : World σ) (w : Workspace) (f' : Frame) (st : σ) (r : Int)
    (u : Value) : Prop where
  bound : (w.binding r).isBound = true
  ty : u.ty = (w.binding r).ty
  value : f'.value? u = some (W.register w st r &&& u.ty.mask)

/-- What is known of registers is in the registers. -/
def Knows {σ : Type} (W : World σ) (w : Workspace) (known : List (Int × Value)) (f' : Frame)
    (st : σ) : Prop :=
  ∀ r u, known.lookup r = some u → Holds W w f' st r u

theorem Knows.cons {known : List (Int × Value)} {r : Int}
    (h : ∀ r' u', r' ≠ r → known.lookup r' = some u' → Holds W w f' st r' u')
    (hu : Holds W w f' st r u) : Knows W w ((r, u) :: known) f' st := by
  intro r' u' hl
  rw [List.lookup_cons] at hl
  split at hl
  · rename_i he
    obtain rfl := beq_iff_eq.mp he
    cases hl
    exact hu
  · rename_i he
    exact h r' u' (by simpa using he) hl

theorem Holds.congr {r : Int} (h : Holds W w f' st r u) {g' : Frame} {st' : σ}
    (hval : g'.value? u = f'.value? u) (hreg : W.register w st' r = W.register w st r)
    : Holds W w g' st' r u :=
  ⟨h.bound, h.ty, by rw [hval, hreg, h.value]⟩

theorem value?_binop (ht : t.IsScalar) (hx : t.Fits x) (hu : f'.value? u = some x)
    (hop : op.onBits (t.low a) (t.low b) = t.low x) : f'.value? u = some (binop op t a b) := by
  rw [hu, Option.some.injEq]
  refine hx.eq_of_low_eq ht.bits_le (fits_binop op t a b) ?_
  rw [low_binop ht, hop]

theorem foldRightZero_value {x : Value} (ht : t.IsScalar) (ha : t.Fits a) (hx : f'.value? x = some a)
    (h : foldRightZero op t x = some u) : f'.value? u = some (binop op t a 0) := by
  cases op <;> simp only [foldRightZero, Option.some.injEq, reduceCtorEq] at h <;> subst h
  case mul | and => exact value?_binop ht t.fits_zero (by simp [Value.lit, Frame.value?]) (by simp [BinOp.onBits, Ty.low_zero])
  all_goals exact value?_binop ht ha hx (by simp [BinOp.onBits, Ty.low_zero])

theorem foldLeftZero_value (ht : t.IsScalar) (hb : t.Fits b) (hy : f'.value? y = some b)
    (h : foldLeftZero op t y = some u) : f'.value? u = some (binop op t 0 b) := by
  cases op <;> simp only [foldLeftZero, Option.some.injEq, reduceCtorEq] at h <;> subst h
  case add | or | xor => exact value?_binop ht hb hy (by simp [BinOp.onBits, Ty.low_zero])
  all_goals exact value?_binop ht t.fits_zero (by simp [Value.lit, Frame.value?]) (by simp [BinOp.onBits, Ty.low_zero])

theorem value?_of_isZero (h : v.isZero = true) (hv : f'.value? v = some a)
    : a = 0 := by
  cases v with
  | const t x =>
    cases hv
    exact beq_iff_eq.mp h
  | var t id => simp [Value.isZero] at h

theorem foldBinop_value {x : Value} (ht : t.IsScalar)
    (ha : t.Fits a) (hb : t.Fits b) (hx : f'.value? x = some a) (hy : f'.value? y = some b)
    (h : foldBinop op t x y = some u) : f'.value? u = some (binop op t a b) := by
  rcases foldBinop_cases h with ⟨tx, a', ty, b', rfl, rfl, rfl⟩ | ⟨hz, hf⟩ | ⟨hz, hf⟩
  · cases hx
    cases hy
    exact congrArg some (fits_binop op t _ _)
  · obtain rfl := value?_of_isZero hz hy
    exact foldRightZero_value ht ha hx hf
  · obtain rfl := value?_of_isZero hz hx
    exact foldLeftZero_value ht hb hy hf

/-- `u` in the new frame has the value and the type of `v` in the old one. -/
def SameValue (f f' : Frame) (v u : Value) : Prop :=
  u.ty = v.ty ∧ ∃ x, f.value? v = some x ∧ f'.value? u = some x ∧ v.ty.Fits x

theorem Agrees.sameValues (h : Agrees idoms label defs defs' s.subst f f')
    (huses : ∀ v ∈ vs, Usable idoms defs label v) (hall : List.Forall₂ s.Replaces vs us)
    (htys : us.map Value.ty = vs.map Value.ty) : List.Forall₂ (SameValue f f') vs us := by
  induction hall with
  | nil => exact .nil
  | cons hvu _ ih =>
    simp only [List.map_cons, List.cons.injEq] at htys
    refine .cons ⟨htys.1, h.operand rfl (huses _ (by simp)) hvu⟩ ?_
    exact ih (fun v hv => huses v (by simp [hv])) htys.2

theorem forall₂_one {R : Value → Value → Prop} (h : List.Forall₂ R [v] us) : ∃ u, us = [u] ∧ R v u := by
  cases h with | cons hu hnil
  cases hnil
  exact ⟨_, rfl, hu⟩

theorem forall₂_two {R : Value → Value → Prop} (h : List.Forall₂ R [v, y] us) :
    ∃ u z, us = [u, z] ∧ R v u ∧ R y z := by
  cases h with | cons hu hrest
  obtain ⟨z, rfl, hz⟩ := forall₂_one hrest
  exact ⟨_, z, rfl, hu, hz⟩

/-- Both runs go on with the result of an instruction that is kept. Values in use stay as they are. -/
theorem settle_agrees (hS : Sound idoms label defs defs' s)
    (hA : Agrees idoms label defs defs' s.subst f f')
    (hdef : Typing.define defs label i = .ok mid)
    (hdef' : Typing.define defs' label i' = .ok mid') (hres : i'.hasResult = i.hasResult)
    (hty : i'.ty = i.ty) (st : σ) (y : UInt64) :
    ∃ g g', Run.settle i f st y = .next g st ∧ Run.settle i' f' st y = .next g' st ∧
      Agrees idoms label mid mid'
        (if i.hasResult then s.subst.setIfInBounds i.res.toNat i'.result else s.subst) g g' ∧
      (i.hasResult = true → g'.value? i'.result = some (y &&& i.ty.mask)) ∧
      ∀ l u, Usable idoms defs' l u → g'.value? u = f'.value? u := by
  by_cases hyes : i.hasResult = true
  · have hyes' := hres.trans hyes
    obtain ⟨-, hnat, hnone, rfl⟩ := define_of_result hdef hyes
    obtain ⟨-, hnat', hnone', rfl⟩ := define_of_result hdef' hyes'
    have hlt : i.res.toNat < f.vars.size := hA.size ▸ (Array.getElem?_eq_some_iff.mp hnone).1
    have hlt' : i'.res.toNat < f'.vars.size := hA.size' ▸ (Array.getElem?_eq_some_iff.mp hnone').1
    have hvalue : (f'.set i'.res.toNat (y &&& i.ty.mask)).value? i'.result =
        some (y &&& i.ty.mask) := by
      rw [result, hnat']
      exact Frame.value?_set_self hlt' i'.ty _
    refine ⟨f.set i.res.toNat (y &&& i.ty.mask), f'.set i'.res.toNat (y &&& i.ty.mask), ?_, ?_, ?_,
      fun _ => hvalue, fun l u hu => Frame.value?_set_of_usable hu hnone' f' _⟩
    · simp [Run.settle, Frame.assign_of_hasResult hyes hnat hlt]
    · simp [Run.settle, Frame.assign_of_hasResult hyes' hnat' hlt', hty]
    · rw [if_pos hyes]
      refine (hA.grow hnone' ?_).define hnone hS.size hvalue (Ty.fits_and_mask _ _)
      intro v d t u hv hu
      obtain ⟨u', hu', -, huse⟩ := hS.value hv
      cases hu'.symm.trans hu
      exact huse
  · simp only [Typing.define, hres, hyes] at hdef hdef'
    cases hdef
    cases hdef'
    refine ⟨f, f', ?_, ?_, by simpa [hyes] using hA, by simp [hyes], fun _ _ _ => rfl⟩
    · simp [Run.settle, Frame.assign, hyes]
    · simp [Run.settle, Frame.assign, hres, hyes]

theorem Agrees.withSlots (h : Agrees idoms label defs defs' s.subst f f') {g g' : Frame}
    (hg : g.vars = f.vars) (hg' : g'.vars = f'.vars) (hslots : g'.slots = g.slots) :
    Agrees idoms label defs defs' s.subst g g' := by
  refine ⟨hslots, by rw [hg, h.size], by rw [hg', h.size'], ?_⟩
  intro v d t u hv hd hu
  obtain ⟨x, hx, hx', hfits⟩ := h.value hv hd hu
  exact ⟨x, by rw [hg, hx], by rw [Frame.value?_congr hg', hx'], hfits⟩

theorem register_write (hlaw : W.Lawful w) {r : Int} (ht : t.IsScalar)
    (hty : t = (w.binding r).ty) (hx : t.Fits x) (st : σ) :
    W.register w (W.writeCell st (w.binding r).cell (w.binding r).ty.accessBytes x) r &&& t.mask = x := by
  have hle := ht.bits_le
  have hbytes : t.accessBytes ≤ 8 := min_le_right _ _
  have hwide : t.bits ≤ 8 * t.accessBytes := by
    rcases ht.cases with rfl | rfl | rfl | rfl | rfl <;> decide
  have hlt := (Ty.fits_iff_lt hle x).mp hx
  rw [World.register, ← hty, ← UInt64.toNat_inj, Ty.toNat_and_mask hle,
    hlaw.read_write _ _ _ _ hbytes, Nat.mod_mod_of_dvd _ (Nat.pow_dvd_pow 2 hwide)]
  exact Nat.mod_eq_of_lt hlt

theorem register_write_ne (hlaw : W.Lawful w) (hapart : w.RegistersApart) {r r' : Int} (hne : r' ≠ r)
    (hb' : (w.binding r').isBound = true) (hb : (w.binding r).isBound = true) (st : σ) (x : UInt64) :
    W.register w (W.writeCell st (w.binding r).cell (w.binding r).ty.accessBytes x) r' =
      W.register w st r' :=
  hlaw.read_write_apart _ _ _ _ _ _ (hapart r' r hne hb' hb)

theorem values?_same (h : List.Forall₂ (SameValue f f') vs us) :
    ∃ xs, f.values? vs = some xs ∧ f'.values? us = some xs := by
  induction h with
  | nil => exact ⟨[], rfl, rfl⟩
  | cons hvu _ ih =>
    obtain ⟨-, x, hx, hx', -⟩ := hvu
    obtain ⟨xs, hxs, hxs'⟩ := ih
    exact ⟨x :: xs, by simp [Frame.values?, hx, hxs], by simp [Frame.values?, hx', hxs']⟩

/-- The two runs in front of an instruction `i` that is kept as `i'`, with the operands `us`. -/
structure Kept {σ : Type} (W : World σ) (w : Workspace) (idoms : Idoms) (label : Nat)
    (defs defs' mid mid' : Defs) (s s' : Sweep) (f f' : Frame) (st : σ) (i i' : Instr)
    (us : List Value) : Prop where
  sound : Sound idoms label defs defs' s
  agrees : Agrees idoms label defs defs' s.subst f f'
  knows : Knows W w s.known f' st
  defines : Typing.define defs label i = .ok mid
  defines' : Typing.define defs' label i' = .ok mid'
  operands : List.Forall₂ (SameValue f f') i.op.operands us
  usable : ∀ u ∈ us, Usable idoms defs' label u
  op : i'.op = i.op.withOperands us
  ty : i'.ty = i.ty
  known : s'.known = (s.learn i').known
  subst : s'.subst = if i.hasResult then s.subst.setIfInBounds i.res.toNat i'.result else s.subst

namespace Kept

/-- The relation of the two runs behind the instruction. -/
def After (W : World σ) (w : Workspace) (idoms : Idoms) (label : Nat) (mid mid' : Defs) (s' : Sweep)
    (g g' : Frame) (st : σ) : Prop :=
  Agrees idoms label mid mid' s'.subst g g' ∧ Knows W w s'.known g' st

variable (K : Kept W w idoms label defs defs' mid mid' s s' f f' st i i' us)
include K

theorem hasResult_eq : i'.hasResult = i.hasResult := by
  have hop := K.op
  have hty := K.ty
  obtain ⟨op', t', n'⟩ := i'
  subst hop hty
  exact hasResult_withOperands i.op us i.ty n' i.res

/-- Both runs get the result `y`; what is then known of registers is left to the operation. -/
theorem settle {g g' : Frame} {st₁ : σ} (y : UInt64) (hg : g.vars = f.vars) (hg' : g'.vars = f'.vars)
    (hslots : g'.slots = g.slots)
    (hK : ∀ h', (i.hasResult = true → h'.value? i'.result = some (y &&& i.ty.mask)) →
      (∀ l u, Usable idoms defs' l u → h'.value? u = f'.value? u) →
      Knows W w s'.known h' st₁) :
    Step.Matches (After W w idoms label mid mid' s') i i' (Run.settle i g st₁ y)
      (Run.settle i' g' st₁ y) := by
  obtain ⟨h, h', hstep, hstep', hA, hvalue, hkeep⟩ :=
    settle_agrees K.sound (K.agrees.withSlots hg hg' hslots) K.defines K.defines' K.hasResult_eq K.ty
      st₁ y
  rw [hstep, hstep']
  refine .next ⟨by rw [K.subst]; exact hA, hK h' hvalue fun l u hu => ?_⟩
  rw [hkeep l u hu, Frame.value?_congr hg']

theorem knows_same (hlearn : (s.learn i').known = s.known) {st₁ : σ}
    (hregs : ∀ r, (w.binding r).isBound = true → W.register w st₁ r = W.register w st r) {h' : Frame}
    (hkeep : ∀ l u, Usable idoms defs' l u → h'.value? u = f'.value? u) :
    Knows W w s'.known h' st₁ := by
  intro r u hl
  rw [K.known, hlearn] at hl
  have hold := K.knows r u hl
  exact hold.congr (hkeep label u (K.sound.known hl)) (hregs r hold.bound)

theorem settle_pure (hlearn : (s.learn i').known = s.known) (y : UInt64) :
    Step.Matches (After W w idoms label mid mid' s') i i' (Run.settle i f st y)
      (Run.settle i' f' st y) :=
  K.settle y rfl rfl K.agrees.slots fun _ _ hkeep => K.knows_same hlearn (fun _ _ => rfl) hkeep

/-- An instruction without a result, whose frames differ at most in their slots. -/
theorem next {g g' : Frame} {st₁ : σ} (hres : i.hasResult = false) (hg : g.vars = f.vars)
    (hg' : g'.vars = f'.vars) (hslots : g'.slots = g.slots)
    (hK : ∀ h', (∀ l u, Usable idoms defs' l u → h'.value? u = f'.value? u) →
      Knows W w s'.known h' st₁) :
    Step.Matches (After W w idoms label mid mid' s') i i' (.next g st₁) (.next g' st₁) := by
  have := K.settle 0 hg hg' hslots fun h' _ hkeep => hK h' hkeep
  simpa [Run.settle, Frame.assign, hres, K.hasResult_eq] using this

theorem after (hres : i.hasResult = false) (hlearn : (s.learn i').known = s.known) :
    After W w idoms label mid mid' s' f f' st := by
  have := K.next hres rfl rfl K.agrees.slots fun _ hkeep =>
    K.knows_same hlearn (fun _ _ => rfl) hkeep
  cases this with
  | next h => exact h

theorem load (hlaw : W.Lawful w) {a' : Value} (hi' : i'.op = .load a') (addr : UInt64) :
    Step.Matches (After W w idoms label mid mid' s') i i' (load W i f st addr)
      (load W i' f' st addr) := by
  have hlearn : (s.learn i').known = s.known := by simp [learn, hi']
  have hslot : f'.slot? addr i.ty.bytes = f.slot? addr i.ty.bytes := by
    simp only [Frame.slot?, K.agrees.slots]
  simp only [Run.load, K.ty, hslot]
  cases f.slot? addr i.ty.bytes with
  | some offset =>
    have hread : f'.readSlot offset i.ty.bytes = f.readSlot offset i.ty.bytes := by
      simp only [Frame.readSlot, K.agrees.slots]
    simp only [hread]
    exact K.settle_pure hlearn _
  | none =>
    have hregs := hlaw.load_register st i.ty.accessBytes addr
    cases hl : W.load st i.ty.accessBytes addr with | mk x st₁
    rw [hl] at hregs
    cases x with
    | none => exact .failed
    | some x =>
      exact K.settle x rfl rfl K.agrees.slots fun _ _ hkeep => K.knows_same hlearn hregs hkeep

theorem store (hlaw : W.Lawful w) {a x a' x' : Value} (hi : i.op = .store a x)
    (hi' : i'.op = .store a' x') (t : Ty) (addr y : UInt64) :
    Step.Matches (After W w idoms label mid mid' s') i i' (store W i f st t addr y)
      (store W i' f' st t addr y) := by
  have hlearn : (s.learn i').known = s.known := by simp [learn, hi']
  have hres : i.hasResult = false := by simp [hasResult, hi]
  have hslot : f'.slot? addr t.bytes = f.slot? addr t.bytes := by
    simp only [Frame.slot?, K.agrees.slots]
  simp only [Run.store, hslot]
  cases f.slot? addr t.bytes with
  | some offset =>
    refine K.next hres rfl rfl ?_ fun _ hkeep => K.knows_same hlearn (fun _ _ => rfl) hkeep
    simp only [Frame.writeSlot, K.agrees.slots]
  | none =>
    have hregs := hlaw.store_register st t.accessBytes addr y
    cases hl : W.store st t.accessBytes addr y with | mk done st₁
    rw [hl] at hregs
    cases done with
    | false => exact .failed
    | true =>
      exact K.next hres rfl rfl K.agrees.slots fun _ hkeep => K.knows_same hlearn hregs hkeep

theorem read {r : Int} (hi : i.op = .read r) (hi' : i'.op = .read r) (hreg : i.RegisterTyped w)
    (hb : (w.binding r).isBound = true) :
    Step.Matches (After W w idoms label mid mid' s') i i' (Run.settle i f st (W.register w st r))
      (Run.settle i' f' st (W.register w st r)) := by
  have hres : i.hasResult = true := by simp [hasResult, hi]
  have hty : i.ty = (w.binding r).ty := by simpa [RegisterTyped, hi, hb] using hreg
  refine K.settle _ rfl rfl K.agrees.slots fun h' hvalue hkeep => ?_
  have hlearn : s'.known = (r, i'.result) :: s.known := by rw [K.known]; simp [learn, hi']
  rw [hlearn]
  refine Knows.cons (fun r' u _ hl => ?_) ⟨hb, K.ty.trans hty, ?_⟩
  · exact (K.knows r' u hl).congr (hkeep label u (K.sound.known hl)) rfl
  · rw [hvalue hres]
    exact congrArg (fun t : Ty => some (_ &&& t.mask)) K.ty.symm

theorem write (hlaw : W.Lawful w) (hapart : w.RegistersApart) {r : Int} {x x' : Value} {y : UInt64}
    (hi : i.op = .write r x) (hi' : i'.op = .write r x') (hreg : i.RegisterTyped w)
    (hb : (w.binding r).isBound = true) (hx' : Usable idoms defs' label x')
    (hty : x'.ty = x.ty) (hy : f'.value? x' = some y) (hfits : x.ty.Fits y) :
    Step.Matches (After W w idoms label mid mid' s') i i'
      (.next f (W.writeCell st (w.binding r).cell (w.binding r).ty.accessBytes y))
      (.next f' (W.writeCell st (w.binding r).cell (w.binding r).ty.accessBytes y)) := by
  have hres : i.hasResult = false := by simp [hasResult, hi]
  have hbind : x.ty = (w.binding r).ty := by simpa [RegisterTyped, hi, hb] using hreg
  refine K.next hres rfl rfl K.agrees.slots fun h' hkeep => ?_
  have hlearn : s'.known = (r, x') :: s.known := by rw [K.known]; simp [learn, hi']
  rw [hlearn]
  refine Knows.cons (fun r' u hne hl => ?_) ⟨hb, hty.trans hbind, ?_⟩
  · have hold := K.knows r' u hl
    exact hold.congr (hkeep label u (K.sound.known hl))
      (register_write_ne hlaw hapart hne hold.bound hb st y)
  · rw [hkeep label x' hx', hy, register_write hlaw hx'.isScalar (hty.trans hbind) (hty ▸ hfits)]

theorem step (hlaw : W.Lawful w) (hapart : w.RegistersApart) (hreg : i.RegisterTyped w)
    (count : Nat) :
    Step.Matches (After W w idoms label mid mid' s') i i' (step W w count label f st i)
      (step W w count label f' st i') := by
  have hall := K.operands
  have hop := K.op
  simp only [Run.step, hop]
  generalize hi : i.op = op at hall hop ⊢
  cases op with
  | exit => exact .exited
  | assert c =>
    obtain ⟨c', rfl, -, a, ha, ha', -⟩ := forall₂_one hall
    simp only [Op.withOperands, ha, ha'] at hop ⊢
    by_cases h0 : a = 0
    · simp only [h0, if_true]
      exact .failed
    · simp only [h0, if_false]
      exact .next (K.after (by simp [hasResult, hi]) (by simp [learn, hop]))
  | br c t₀ t₁ =>
    obtain ⟨c', rfl, -, a, ha, ha', -⟩ := forall₂_one hall
    simp only [Op.withOperands, ha, ha', jump] at hop ⊢
    have hafter := K.after (by simp [hasResult, hi]) (by simp [learn, hop])
    split_ifs with hfirst hbad hbad
    · exact .failed
    · exact .jump hi (Or.inl rfl) hafter
    · exact .failed
    · exact .jump hi (Or.inr rfl) hafter
  | call target ps =>
    simp only [Op.withOperands, Op.operands] at hop hall
    obtain ⟨xs, hxs, hxs'⟩ := values?_same hall
    simp only [Op.withOperands, withValues, hxs, hxs']
    cases target.bind W.call with
    | none => exact .failed
    | some impl =>
      refine K.settle _ rfl rfl K.agrees.slots fun _ _ _ => ?_
      intro r u hl
      rw [K.known] at hl
      simp [learn, hop] at hl
  | alloc slot =>
    simp only [Op.withOperands] at hop ⊢
    have hres : (f'.reserve slot).1 = (f.reserve slot).1 := by simp [Frame.reserve, K.agrees.slots]
    rw [hres]
    refine K.settle _ rfl rfl (by simp [Frame.reserve, K.agrees.slots]) fun _ _ hkeep =>
        K.knows_same (by simp [learn, hop]) (fun _ _ => rfl) hkeep
  | not x =>
    obtain ⟨x', rfl, -, a, ha, ha', -⟩ := forall₂_one hall
    simp only [Op.withOperands, ha, ha'] at hop ⊢
    exact K.settle_pure (by simp [learn, hop]) _
  | binop op x y =>
    obtain ⟨x', y', rfl, ⟨-, a, ha, ha', -⟩, -, b, hb, hb', -⟩ := forall₂_two hall
    simp only [Op.withOperands, ha, ha', hb, hb', K.ty] at hop ⊢
    exact K.settle_pure (by simp [learn, hop]) _
  | icmp op x y =>
    obtain ⟨x', y', rfl, ⟨hty, a, ha, ha', -⟩, -, b, hb, hb', -⟩ := forall₂_two hall
    simp only [Op.withOperands, ha, ha', hb, hb', hty] at hop ⊢
    exact K.settle_pure (by simp [learn, hop]) _
  | cvt op x =>
    obtain ⟨x', rfl, hty, a, ha, ha', -⟩ := forall₂_one hall
    simp only [Op.withOperands, ha, ha', hty, K.ty] at hop ⊢
    exact K.settle_pure (by simp [learn, hop]) _
  | load a =>
    obtain ⟨a', rfl, -, addr, ha, ha', -⟩ := forall₂_one hall
    simp only [Op.withOperands, ha, ha'] at hop ⊢
    exact K.load hlaw hop addr
  | store a x =>
    obtain ⟨a', x', rfl, ⟨-, addr, ha, ha', -⟩, hty, y, hy, hy', -⟩ := forall₂_two hall
    simp only [Op.withOperands, ha, ha', hy, hy', hty] at hop ⊢
    exact K.store hlaw hi hop x.ty addr y
  | read r =>
    by_cases hb : (w.binding r).isBound = true
    · simp only [Op.withOperands, hb, Bool.not_true, Bool.false_eq_true, if_false]
      exact K.read hi hop hreg hb
    · simp only [Op.withOperands, hb, Bool.not_false, if_true]
      exact .failed
  | write r x =>
    obtain ⟨x', rfl, hty, y, hy, hy', hfits⟩ := forall₂_one hall
    by_cases hb : (w.binding r).isBound = true
    · simp only [Op.withOperands, hy, hy', hb, Bool.not_true, Bool.false_eq_true, if_false]
      exact K.write hlaw hapart hi hop hreg hb (K.usable _ (by simp)) hty hy' hfits
    · simp only [Op.withOperands, hy, hy', hb, Bool.not_false, if_true]
      exact .failed
  | unknown tag => exact .failed

end Kept

/-- Two runs of a block do the same: they jump to one label, exit, or fail at instructions that
correspond by their place in the block. -/
inductive BlockMatches {σ : Type} (R : Frame → Frame → σ → Prop) (is is' : List Instr) :
    Step σ → Step σ → Prop where
  | jump {i c t₀ t₁ t f f' s} (hlast : is.getLast? = some i) (hop : i.op = .br c t₀ t₁)
      (ht : t = t₀ ∨ t = t₁) (h : R f f' s) : BlockMatches R is is' (.jump t.toNat f s)
      (.jump t.toNat f' s)
  | exited {s : σ} : BlockMatches R is is' (.stop .exited s) (.stop .exited s)
  | failed {pre post pre' post' : List Instr} {i i' : Instr} {c : RunCause} {s : σ}
      (h : is = pre ++ i :: post) (h' : is' = pre' ++ i' :: post') (hpre : Trimmed pre pre')
      (hi : i.Rewrites i') (hpost : Trimmed post post') :
      BlockMatches R is is' (.stop (.failed (.at i c)) s) (.stop (.failed (.at i' c)) s)

section

variable {R : Frame → Frame → σ → Prop} {a b : Step σ} (h : BlockMatches R is is' a b)
include h

/-- An instruction in front, of which `new` is left. -/
theorem BlockMatches.cons (new : List Instr)
    (hnew : ∀ {pre pre'}, Trimmed pre pre' → Trimmed (i :: pre) (new ++ pre')) :
    BlockMatches R (i :: is) (new ++ is') a b := by
  cases h with
  | jump hlast hop ht h => exact .jump (by simp [List.getLast?_cons, hlast]) hop ht h
  | exited => exact .exited
  | failed h h' hpre hj hpost => exact .failed (by rw [h]; rfl) (by simp [h']) (hnew hpre) hj hpost

end

theorem step_ne_next {count : Nat} {g : Frame} {st₁ : σ} (h : i.isTerminator = true) :
    step W w count label f st i ≠ .next g st₁ := by
  obtain ⟨op, t, n⟩ := i
  cases op with
  | exit => simp [step]
  | br c t₀ t₁ =>
    simp only [step]
    cases f.value? c with
    | none => simp
    | some a =>
      simp only [jump]
      split_ifs <;> simp [stopAt]
  | _ => simp [isTerminator, Op.isTerminator] at h

section

variable (hS : Sound idoms label defs defs' s) (hA : Agrees idoms label defs defs' s.subst f f')
  (hK : Knows W w s.known f' st) (hi : checkInstr idoms label defs i = .ok mid)
  (hus : s.substitute i.op.operands = (us, true))
include hS hA hK hi hus

/-- An instruction that goes away only sets its variable, and what stands for it has its value. -/
theorem step_folded
    (hfold : s.fold { i with op := i.op.withOperands us } = some u) (count : Nat) :
    ∃ y, Run.step W w count label f st i = Run.settle i f st y ∧
      f'.value? u = some (y &&& i.ty.mask) := by
  obtain ⟨huses, hshape, hdef⟩ := checkInstr_ok.mp hi
  obtain ⟨us', hus', hall, htys, -⟩ := hS.substitute huses
  obtain rfl : us' = us := congrArg Prod.fst (hus'.symm.trans hus)
  replace hall := hA.sameValues huses hall htys
  obtain ⟨op, t, n⟩ := i
  cases op with
  | not x =>
    obtain ⟨x', rfl, -, a, ha, ha', -⟩ := forall₂_one hall
    refine ⟨~~~a, by simp [Run.step, ha], ?_⟩
    cases x' with
    | var tx id => simp [Op.withOperands, fold] at hfold
    | const tx b =>
      cases ha'
      cases hfold
      rfl
  | binop op x y =>
    obtain ⟨x', y', rfl, ⟨-, a, ha, ha', hfa⟩, -, b, hb, hb', hfb⟩ := forall₂_two hall
    obtain ⟨rfl, hty⟩ := checkShape_binop hshape
    refine ⟨binop op x.ty a b, by simp [Run.step, ha, hb], ?_⟩
    rw [fits_binop op x.ty a b]
    have hux := huses x (by simp [Op.operands])
    exact foldBinop_value hux.isScalar hfa (hty ▸ hfb) ha' hb' hfold
  | icmp op x y =>
    obtain ⟨x', y', rfl, ⟨htx, a, ha, ha', -⟩, -, b, hb, hb', -⟩ := forall₂_two hall
    obtain ⟨-, rfl⟩ := checkShape_icmp hshape
    refine ⟨ofBool (cmp op x.ty a b), by simp [Run.step, ha, hb], ?_⟩
    cases x' with
    | var tx id => simp [Op.withOperands, fold] at hfold
    | const tx a' =>
      cases y' with
      | var ty id => simp [Op.withOperands, fold] at hfold
      | const ty b' =>
        obtain rfl : tx = x.ty := htx
        cases ha'
        cases hb'
        cases hfold
        rfl
  | cvt op x =>
    obtain ⟨x', rfl, htx, a, ha, ha', -⟩ := forall₂_one hall
    refine ⟨cvt op x.ty t a, by simp [Run.step, ha], ?_⟩
    cases x' with
    | var tx id =>
      simp only [Op.withOperands, fold] at hfold
      split_ifs at hfold with hsame
      exact absurd (hsame.symm.trans htx) (checkShape_cvt hshape)
    | const tx a' =>
      obtain rfl : tx = x.ty := htx
      cases ha'
      cases hfold
      rfl
  | read r =>
    simp only [Op.withOperands, fold] at hfold
    split at hfold
    · rename_i v hv
      split_ifs at hfold with hty
      cases hfold
      obtain ⟨hb, -, hu⟩ := hK r _ hv
      refine ⟨W.register w st r, by simp [Run.step, hb, World.register], ?_⟩
      rw [hu, hty]
    · cases hfold
  | call target ps | exit | alloc slot | unknown tag => simp [Op.withOperands, fold] at hfold
  | assert c | br c f t | load a | write r x =>
    obtain ⟨x', rfl, -⟩ := forall₂_one hall
    simp [Op.withOperands, fold] at hfold
  | store a x =>
    obtain ⟨a', x', rfl, -⟩ := forall₂_two hall
    simp [Op.withOperands, fold] at hfold

/-- The old run passes an instruction that went away. -/
theorem step_dropped
    (hset : s.settle { i with op := i.op.withOperands us } = some (none, s')) (count : Nat) :
    ∃ g, step W w count label f st i = .next g st ∧
      Agrees idoms label mid defs' s'.subst g f' ∧ s'.known = s.known := by
  rcases settle_cases hset with ⟨u, hfold, -, rfl⟩ | ⟨-, -, hkept, -⟩ | ⟨-, -, hkept, -⟩
  · obtain ⟨y, hstep, hu⟩ := step_folded hS hA hK hi hus hfold count
    have hres := hasResult_of_fold hfold
    rw [hasResult_withOperands i.op us i.ty i.res i.res] at hres
    obtain ⟨-, hnat, hnone, rfl⟩ := define_of_result (checkInstr_ok.mp hi).2.2 hres
    have hlt : i.res.toNat < f.vars.size := hA.size ▸ (Array.getElem?_eq_some_iff.mp hnone).1
    refine ⟨f.set i.res.toNat (y &&& i.ty.mask), ?_, ?_, rfl⟩
    · simp [hstep, Run.settle, Frame.assign_of_hasResult hres hnat hlt]
    · exact hA.define hnone hS.size hu (Ty.fits_and_mask _ _)
  · cases hkept
  · cases hkept

theorem Kept.of_settle
    (hset : s.settle { i with op := i.op.withOperands us } = some (some i', s'))
    (hi' : checkInstr idoms label defs' i' = .ok mid') :
    Kept W w idoms label defs defs' mid mid' s s' f f' st i i' us := by
  obtain ⟨huses, -, hdef⟩ := checkInstr_ok.mp hi
  obtain ⟨-, -, hdef'⟩ := checkInstr_ok.mp hi'
  obtain ⟨us', hus', hall, htys, huses'⟩ := hS.substitute huses
  obtain rfl : us' = us := congrArg Prod.fst (hus'.symm.trans hus)
  obtain ⟨hop, hty, hknown, hsubst⟩ := settle_kept hset
  rw [hasResult_withOperands i.op us' i.ty i.res i.res] at hsubst
  exact ⟨hS, hA, hK, hdef, hdef', hA.sameValues huses hall htys, huses', hop, hty, hknown, hsubst⟩

end

theorem block_matches (hlaw : W.Lawful w) (hapart : w.RegistersApart) {last : Defs}
    (hS : Sound idoms label defs defs' s)
    (hA : Agrees idoms label defs defs' s.subst f f') (hK : Knows W w s.known f' st) (hne : is ≠ [])
    (hcheck : checkInstrs idoms label defs is = .ok last)
    (hs : s.instrs is = (is', s', true)) (hroom : s'.next ≤ defs'.size)
    (hreg : ∀ i ∈ is, i.RegisterTyped w) {last' : Defs}
    (hcheck' : checkInstrs idoms label defs' is' = .ok last') (count : Nat) :
    BlockMatches (fun g g' _ => Agrees idoms label last last' s'.subst g g') is is'
      (block W w count label f st is) (block W w count label f' st is') := by
  induction is generalizing defs defs' s is' f f' st with
  | nil => exact absurd rfl hne
  | cons i rest ih =>
    obtain ⟨mid, hplace, hi, hrest⟩ := checkInstrs_cons_ok.mp hcheck
    obtain ⟨us, kept, s₁, rest', hus, hset, hs₁, rfl⟩ := instrs_cons hs
    have hroom₁ : s₁.next ≤ defs'.size := (instrs_mono hs₁).2.trans hroom
    have hreg' : ∀ j ∈ rest, j.RegisterTyped w := fun j hj => hreg j (by simp [hj])
    rcases hS.settle hi hus hset hroom₁ with ⟨rfl, hres, hmid⟩ | ⟨i', mid', rfl, hrw, hi', hmid⟩
    · obtain ⟨g, hstep, hA₁, hknown⟩ := step_dropped hS hA hK hi hus hset count
      have hrest_ne : rest ≠ [] := by
        rintro rfl
        rw [isTerminator_of_hasResult hres] at hplace
        cases hplace
      have := ih hmid hA₁ (hknown ▸ hK) hrest_ne hrest hs₁ hroom hreg' hcheck'
      simp only [block, hstep]
      exact this.cons [] (.drop hres)
    · obtain ⟨mid₂, -, hi₂, hrest'⟩ := checkInstrs_cons_ok.mp hcheck'
      obtain rfl : mid₂ = mid' := Except.ok.inj (hi₂.symm.trans hi')
      have hsize : mid₂.size = defs'.size :=
        (define_extends (checkInstr_ok.mp hi').2.2).size
      have hstep := (Kept.of_settle hS hA hK hi hus hset hi').step hlaw hapart (hreg i (by simp)) count
      obtain ⟨htrim, -⟩ := hmid.instrs hrest hs₁ (hsize ▸ hroom)
      simp only [block, Option.toList_some, List.singleton_append]
      generalize hold : step W w count label f st i = a at hstep
      generalize hnew : step W w count label f' st i' = b at hstep
      cases hstep with
      | next hafter =>
        have hrest_ne : rest ≠ [] := by
          rintro rfl
          exact step_ne_next hplace hold
        have := ih hmid hafter.1 hafter.2 hrest_ne hrest hs₁ (hsize ▸ hroom) hreg' hrest'
        exact this.cons [i'] (.keep hrw)
      | jump hop ht hafter =>
        have hterm : i.isTerminator = true := by simp [isTerminator, hop, Op.isTerminator]
        obtain rfl : rest = [] := List.isEmpty_iff.mp (hplace ▸ hterm)
        cases hs₁
        cases hrest
        cases hrest'
        exact .jump rfl hop ht hafter.1
      | exited => exact .exited
      | failed => exact .failed rfl rfl .nil hrw htrim

end Sweep

/-- Runs of `g` and `g'` end in the same way: both exit, or both fail for the same cause at
instructions that have the same place among the instructions that are left of a block. -/
inductive Outcome.Matches (g g' : Graph) : Outcome → Outcome → Prop where
  | exited : Matches g g' .exited .exited
  | failed {k : Nat} {b b' : Block} {pre post pre' post' : List Instr} {i i' : Instr}
      {c : RunCause} (hb : g.blocks[k]? = some b) (hb' : g'.blocks[k]? = some b')
      (h : b.instrs = pre ++ i :: post) (h' : b'.instrs = pre' ++ i' :: post')
      (hpre : Trimmed pre pre') (hi : i.Rewrites i') (hpost : Trimmed post post') :
      Matches g g' (.failed (.at i c)) (.failed (.at i' c))

namespace Graph

variable {σ : Type} {W : World σ} {g g' : Graph}

/-- Frames that agree at the end of block `k` agree at the start of a block it branches to. -/
theorem Swept.agrees_edge (T : g.Typed) (T' : g'.Typed) (S : g.Swept g') {t : Int}
    (hedge : g.Edge k t)
    (h : Agrees T.idoms k (T.defs (k + 1)) (T'.defs (k + 1)) (S.table (k + 1)).subst f f') :
    Agrees T.idoms t.toNat (T.defs t.toNat) (T'.defs t.toNat) (S.table t.toNat).subst f f' := by
  obtain ⟨hlt, hsize⟩ := dominators_forward T.dominators hedge
  have hle : t.toNat ≤ g.blocks.size := by omega
  refine ⟨h.slots, ?_, ?_, ?_⟩
  · rw [h.size, T.size_defs (by omega), T.size_defs hle]
  · rw [h.size', T'.size_defs (by rw [S.size]; omega), T'.size_defs (by rw [S.size]; omega)]
  · intro v d ty u hv hdom hu
    -- The variable was defined before block `t`, so its block dominates `k` as well.
    have hdt : d < t.toNat := T.defs_lt hle hv
    have hdk : T.idoms.dominates d k = true := by
      rcases dominates_edge T.dominators hedge hdom with rfl | h
      · exact absurd hdt (lt_irrefl _)
      · exact h
    have hd : d < k + 1 := Nat.lt_succ_of_le (Idoms.dominates_iff_above.mp hdk).le
    have hv' := T.defs_of_lt (by omega) hle hv hd
    rw [S.subst_eq T (by omega) hle hv'] at hu
    exact h.value hv' hdk hu

theorem Swept.enter_matches (hlaw : W.Lawful w) (hapart : w.RegistersApart)
    (hreg : ∀ i ∈ g.instrs, i.RegisterTyped w) (T : g.Typed) (T' : g'.Typed) (S : g.Swept g')
    (hidoms : T'.idoms = T.idoms) (hsound : ∀ k ≤ g.blocks.size,
      Sound T.idoms k (T.defs k) (T'.defs k) (S.table k).atEntry) (hk : k < g.blocks.size)
    (st : σ) (hA : Agrees T.idoms k (T.defs k) (T'.defs k) (S.table k).subst f f') :
    Outcome.Matches g g' (Run.enter W w g k f st).1 (Run.enter W w g' k f' st).1 ∧
      (Run.enter W w g' k f' st).2 = (Run.enter W w g k f st).2 := by
  induction hn : g.blocks.size - k using Nat.strong_induction_on generalizing k f f' st with
  | _ n ih =>
    have hk' : k < g'.blocks.size := by rwa [S.size]
    have hb : g.blocks[k]? = some g.blocks[k] := Array.getElem?_eq_getElem hk
    have hb' : g'.blocks[k]? = some g'.blocks[k] := Array.getElem?_eq_getElem hk'
    obtain ⟨is', his', hkept⟩ := S.block hb
    obtain ⟨hlabel, hne, hcheck⟩ := T.block hb
    obtain ⟨-, -, hcheck'⟩ := T'.block hb'
    have hinstrs : g'.blocks[k].instrs = is' := by
      rw [hb'] at hkept
      exact congrArg Block.instrs (Option.some.inj hkept)
    rw [hidoms] at hcheck'
    have hroom : (S.table (k + 1)).next ≤ (T'.defs k).size := by
      rw [T'.size_defs hk'.le, S.varCount_toNat]
      exact S.next_mono hk le_rfl
    have hK : Knows W w (S.table k).atEntry.known f' st := by
      intro r u hl
      simp [atEntry] at hl
    have hblock := block_matches hlaw hapart (hsound k hk.le) hA hK hne hcheck
      (hinstrs ▸ his') hroom (fun i hi => hreg i (mem_instrs hb hi)) hcheck' g.blocks.size
    rw [Run.enter, Run.enter, dif_pos hk, dif_pos hk', S.size]
    generalize Run.block W w g.blocks.size k f st g.blocks[k].instrs = a at hblock ⊢
    generalize Run.block W w g.blocks.size k f' st g'.blocks[k].instrs = b at hblock ⊢
    cases hblock with
    | @jump i c t₀ t₁ t f₁ f₁' st₁ hlast hop ht h =>
      have hedge : g.Edge k t := ⟨_, i, c, t₀, t₁, hb, hlast, hop, ht⟩
      obtain ⟨hlt, hsize⟩ := dominators_forward T.dominators hedge
      have hfwd : k < t.toNat := by omega
      simp only [hfwd, if_true]
      exact ih _ (by omega) (by omega) st₁ (S.agrees_edge T T' hedge h) rfl
    | exited => exact ⟨.exited, rfl⟩
    | failed h h' hpre hi hpost => exact ⟨.failed hb hb' h h' hpre hi hpost, rfl⟩

/-- A checked graph and what the sweep makes of it run alike. -/
theorem Swept.run_matches (hlaw : W.Lawful w) (hapart : w.RegistersApart)
    (hreg : ∀ i ∈ g.instrs, i.RegisterTyped w) (T : g.Typed) (S : g.Swept g')
    (hne : g.blocks.size ≠ 0) (hroom : g.hasRoomFor 8 = true) (st : σ) :
    Outcome.Matches g g' (g.run W w st).1 (g'.run W w st).1 ∧
      (g'.run W w st).2 = (g.run W w st).2 := by
  obtain ⟨T', hidoms, hsound⟩ := S.typed T
  have hroom' : g'.hasRoomFor 8 = true :=
    hasRoomFor_of_le hroom le_rfl (by rw [S.varCount]; omega) (S.varCount_le T)
  have hempty : g.blocks.isEmpty = false := by simpa using hne
  have hempty' : g'.blocks.isEmpty = false := by simpa [← S.size] using hne
  have hstart : Agrees T.idoms 0 (T.defs 0) (T'.defs 0) (S.table 0).subst
      { vars := Array.replicate g.varCount.toNat 0 }
      { vars := Array.replicate g'.varCount.toNat 0 } := by
    refine ⟨rfl, by simp [T.start], by simp [T'.start], ?_⟩
    intro v d t u hv
    exact absurd (T.defs_lt (Nat.zero_le _) hv) (Nat.not_lt_zero _)
  have := S.enter_matches hlaw hapart hreg T T' hidoms hsound (Nat.pos_of_ne_zero hne) st hstart
  simpa [run, hempty, hempty', hroom, hroom'] using this

end Graph

theorem Instr.Rewrites.refl (i : Instr) : i.Rewrites i :=
  ⟨i.op.operands, i.res, rfl, by rw [Op.withOperands_operands]⟩

theorem Instr.Trimmed.refl (is : List Instr) : Trimmed is is := by
  induction is with
  | nil => exact .nil
  | cons i rest ih => exact .keep (.refl i) ih

theorem Outcome.Matches.left {g g' : Graph} {o o' : Outcome} (h : Matches g g' o o') :
    Matches g g o o := by
  cases h with
  | exited => exact .exited
  | failed hb hb' h h' hpre hi hpost => exact .failed hb hb h h (.refl _) (.refl _) (.refl _)

/-- Simplification keeps the meaning of a checked graph, for registers that share no byte and are read
and written with the types they are bound to, any lawful world and any call targets. Both runs end in
the same way, in the same state, and with the same accesses to the bus and the same calls; the log
changes neither of them. -/
theorem Graph.run_simplify {σ : Type} {W : World σ} {w : Workspace} {g : Graph} (hlaw : W.Lawful w)
    (hapart : w.RegistersApart) (hreg : ∀ i ∈ g.instrs, i.RegisterTyped w)
    (h : g.typecheck = .accepted) (s : σ) :
    Outcome.Matches g g.simplify (g.run W w s).1 (g.simplify.run W w s).1 ∧
      (g.simplify.run W w s).2 = (g.run W w s).2 ∧
      (g.simplify.run W.traced w (s, [])).2 = (g.run W.traced w (s, [])).2 ∧
      Prod.map id Prod.fst (g.run W.traced w (s, [])) = g.run W w s ∧
      Prod.map id Prod.fst (g.simplify.run W.traced w (s, [])) = g.simplify.run W w s := by
  obtain ⟨hne, hroom, ⟨T⟩⟩ := typecheck_eq_accepted.mp h
  obtain ⟨g', ⟨S⟩, hsweep⟩ := T.swept
  have hplain := S.run_matches hlaw hapart hreg T hne hroom s
  have htraced := S.run_matches hlaw.traced hapart hreg T hne hroom (s, [])
  have hlog := g.run_traced W w s []
  by_cases h24 : g.hasRoomFor 24 = true
  · have hsimp : g.simplify = g' := by rw [simplify, hsweep h24]
    rw [hsimp]
    exact ⟨hplain.1, hplain.2, htraced.2, hlog, g'.run_traced W w s []⟩
  · -- Without room for its table the sweep leaves the graph as it is.
    have hsame : g.simplify = g := by simp [simplify, sweep, h24]
    rw [hsame]
    exact ⟨hplain.1.left, rfl, rfl, hlog, hlog⟩

/-- Copies a word of memory from the address in one register to another register, and asks for 7. -/
def Graph.copyWord : Graph where
  blocks := #[
    ⟨0, [⟨.read 0, .i64, 0⟩, ⟨.binop .add (.var .i64 0) (.const .i64 0), .i64, 1⟩,
      ⟨.load (.var .i64 1), .i64, 2⟩, ⟨.write 1 (.var .i64 2), .void, 0⟩, ⟨.read 1, .i64, 3⟩,
      ⟨.icmp .eq (.var .i64 3) (.const .i64 7), .i1, 4⟩, ⟨.br (.var .i1 4) 1 2, .void, 0⟩]⟩,
    ⟨1, [⟨.assert (.var .i1 4), .void, 0⟩, ⟨.exit, .void, 0⟩]⟩,
    ⟨2, [⟨.exit, .void, 0⟩]⟩]
  varCount := 5

def Workspace.twoWords : Workspace where
  registers := 2
  bindings := #[⟨.i64, "a", 0x1000⟩, ⟨.i64, "b", 0x1008⟩]
  capacity := ⟨3, 10, 0⟩
  used := {}

theorem Graph.run_simplify_copyWord :
    copyWord.typecheck = .accepted ∧ copyWord.simplify ≠ copyWord ∧
      (∀ s : Host, Outcome.Matches copyWord copyWord.simplify
        (copyWord.run (Host.world fun _ => none) .twoWords s).1
        (copyWord.simplify.run (Host.world fun _ => none) .twoWords s).1) := by
  have hchecked : copyWord.typecheck = .accepted := by decide +kernel
  have happart : Workspace.twoWords.RegistersApart :=
    Workspace.registersApart_of_table (by decide +kernel)
  have htyped : ∀ i ∈ copyWord.instrs, i.RegisterTyped .twoWords := by
    simp [instrs, copyWord, Instr.RegisterTyped, Workspace.binding, Workspace.twoWords, entryAt?,
      Value.ty]
  refine ⟨hchecked, by decide +kernel, fun s => ?_⟩
  exact (run_simplify (Host.world_lawful _ _) happart htyped hchecked s).1

end Dynarec
