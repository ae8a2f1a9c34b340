import Dynarec.Proofs.Graph.Typing

/-!
# Graphs that are trees

In a graph under construction every block but the first is opened by one branch, so the edges form a
tree and the parent of a block is its immediate dominator. `Graph.Tree` collects what holds of such a
graph while blocks are still filled: it speaks of the instructions in front of a position and not of
tables, so that it survives whatever is appended elsewhere. A finished tree passes the type checker,
and a tree stays one when an instruction that fits is appended to an open block.
-/
namespace Dynarec

namespace Graph

open Typing List

variable {b b' : Block} {i : Instr} {id : Int} {p : Nat × Ty} {d k : Nat} {v : Value} {g g' : Graph}

/-- Block `d` has an instruction whose result is variable `id` of type `t`. -/
def Defines (g : Graph) (d : Nat) (id : Int) (t : Ty) : Prop :=
  ∃ b i, g.blocks[d]? = some b ∧ i ∈ b.instrs ∧ i.hasResult = true ∧ i.res = id ∧ i.ty = t

/-- Block `k` lies below block `d`. -/
def Below (g : Graph) : Nat → Nat → Prop :=
  Relation.TransGen fun p k => g.Edge p (k : Int)

/-- A value may be used in block `k` behind the instructions `pre` of that block. -/
def InScope (g : Graph) (k : Nat) (pre : List Instr) : Value → Prop
  | .const t x => t.IsScalar ∧ t.Fits x
  | .var t id => t.IsScalar ∧
      ((∃ i ∈ pre, i.hasResult = true ∧ i.res = id ∧ i.ty = t) ∨
        ∃ d, g.Below d k ∧ g.Defines d id t)

/-- An instruction fits behind the instructions `pre` of block `k`. -/
structure InstrFits (g : Graph) (k : Nat) (pre : List Instr) (i : Instr) : Prop where
  shape : checkShape i = .ok ()
  operands : ∀ v ∈ i.op.operands, g.InScope k pre v
  result : i.hasResult = true → i.ty.IsScalar ∧ 0 ≤ i.res ∧ i.res < g.varCount

structure Tree (g : Graph) : Prop where
  label : ∀ {k : Nat} {b}, g.blocks[k]? = some b → b.label = k
  fits : ∀ {k : Nat} {b pre i post}, g.blocks[k]? = some b → b.instrs = pre ++ i :: post →
    g.InstrFits k pre i ∧ (i.isTerminator = true → post = [])
  unique : ∀ {k k' : Nat} {b b' pre pre' i i' post post'}, g.blocks[k]? = some b →
    g.blocks[k']? = some b' → b.instrs = pre ++ i :: post → b'.instrs = pre' ++ i' :: post' →
    i.hasResult = true → i'.hasResult = true → i.res = i'.res → k = k' ∧ pre.length = pre'.length
  edge : ∀ {p : Nat} {t}, g.Edge p t → (p : Int) < t ∧ t < g.blocks.size
  parent : ∀ {p p' : Nat} {t}, g.Edge p t → g.Edge p' t → p = p'
  sides : ∀ {k : Nat} {b i c t₀ t₁}, g.blocks[k]? = some b → b.tail? = some i →
    i.op = .br c t₀ t₁ → t₀ ≠ t₁

/-- Every block but the first has a parent. -/
def Reached (g : Graph) : Prop :=
  ∀ k : Nat, 0 < k → k < g.blocks.size → ∃ p, g.Edge p k

def Closed (g : Graph) : Prop :=
  ∀ {k : Nat} {b}, g.blocks[k]? = some b → ∃ i, b.tail? = some i ∧ i.isTerminator = true

namespace Tree

variable (h : g.Tree) {idoms : Idoms}
include h

theorem dominators_eq (hreached : g.Reached) (hne : 0 < g.blocks.size) :
    ∃ idoms, g.dominators = .ok idoms := by
  refine exists_dominators hne h.edge fun k hk => ?_
  induction k using Nat.strong_induction_on with
  | _ k ih =>
    rcases Nat.eq_zero_or_pos k with rfl | hpos
    · exact ⟨_, .start⟩
    · obtain ⟨p, hp⟩ := hreached k hpos hk
      have hlt := (h.edge hp).1
      obtain ⟨way, hway⟩ := ih p (by omega) hp.source_lt
      exact ⟨_, hway.extend hp⟩

/-- All paths to a block go through its parent. -/
theorem way_cons {p : Nat} (hp : g.Edge p k) {way : List Nat} (hway : g.Way k way) :
    ∃ rest, way = k :: rest ∧ g.Way p rest := by
  cases hway with
  | start =>
    have := (h.edge hp).1
    omega
  | extend hway hedge =>
    obtain rfl := h.parent hedge hp
    exact ⟨_, rfl, hway⟩

theorem dominates_of_below (hidoms : g.dominators = .ok idoms) (hdk : g.Below d k) :
    idoms.dominates d k = true := by
  have hk : k < g.blocks.size := by
    cases hdk with
    | single he | tail _ he =>
      have := (h.edge he).2
      omega
  rw [dominates_iff (Nat.zero_lt_of_lt hk) hidoms hk]
  intro way hway
  induction hdk generalizing way with
  | single he =>
    obtain ⟨rest, rfl, hrest⟩ := h.way_cons he hway
    exact mem_cons_of_mem _ hrest.mem
  | tail _ he ih =>
    obtain ⟨rest, rfl, hrest⟩ := h.way_cons he hway
    exact mem_cons_of_mem _ (ih he.source_lt rest hrest)

theorem below_lt (hdk : g.Below d k) : d < k := by
  induction hdk with
  | single he | tail _ he ih =>
    have := (h.edge he).1
    omega

end Tree

/-- The variables defined in the blocks in front of `k` and by the instructions `pre` of block `k`. -/
def DefinedBy (g : Graph) (k : Nat) (pre : List Instr) (id : Int) (p : Nat × Ty) : Prop :=
  (p.1 < k ∧ g.Defines p.1 id p.2) ∨
    (p.1 = k ∧ ∃ i ∈ pre, i.hasResult = true ∧ i.res = id ∧ i.ty = p.2)

/-- Some definition that satisfies `P`. -/
noncomputable def someDef (P : Nat × Ty → Prop) : Option (Nat × Ty) :=
  open Classical in if h : ∃ p, P p then some h.choose else none

/-- The table of the checker behind the instructions `pre` of block `k`. -/
noncomputable def defsAt (g : Graph) (k : Nat) (pre : List Instr) : Defs :=
  Array.ofFn fun v : Fin g.varCount.toNat => someDef (g.DefinedBy k pre (v : Nat))

@[simp] theorem size_defsAt (g : Graph) (k : Nat) (pre : List Instr) :
    (g.defsAt k pre).size = g.varCount.toNat := by
  simp [defsAt]

theorem defsAt_congr {k' v : Nat} {pre pre' : List Instr}
    (h : ∀ p, g.DefinedBy k pre v p ↔ g.DefinedBy k' pre' v p) :
    (g.defsAt k pre)[v]? = (g.defsAt k' pre')[v]? := by
  have : g.DefinedBy k pre v = g.DefinedBy k' pre' v := by
    funext p
    exact propext (h p)
  rw [defsAt, defsAt, Array.getElem?_ofFn, Array.getElem?_ofFn]
  simp only [this]

theorem defsAt_eq_none {v : Nat} {pre : List Instr} (hv : v < g.varCount.toNat)
    (h : ∀ p, ¬ g.DefinedBy k pre v p) : (g.defsAt k pre)[v]? = some none := by
  rw [defsAt, Array.getElem?_ofFn]
  simp [hv, someDef, h]

namespace Tree

variable (h : g.Tree)
include h

theorem defines_unique {d' : Nat} {t t' : Ty} (hd : g.Defines d id t) (hd' : g.Defines d' id t') :
    d = d' ∧ t = t' := by
  obtain ⟨b, i, hb, hi, hres, hid, rfl⟩ := hd
  obtain ⟨b', i', hb', hi', hres', hid', rfl⟩ := hd'
  obtain ⟨pre, post, hpre⟩ := append_of_mem hi
  obtain ⟨pre', post', hpre'⟩ := append_of_mem hi'
  obtain ⟨rfl, hlen⟩ := h.unique hb hb' hpre hpre' hres hres' (hid.trans hid'.symm)
  cases hb.symm.trans hb'
  rw [hpre] at hpre'
  obtain ⟨-, hcons⟩ := append_inj hpre' hlen
  simp only [cons.injEq] at hcons
  exact ⟨rfl, by rw [hcons.1]⟩

theorem res_range {t : Ty} (hd : g.Defines d id t) : 0 ≤ id ∧ id < g.varCount := by
  obtain ⟨b, i, hb, hi, hres, rfl, -⟩ := hd
  obtain ⟨pre, post, hpre⟩ := append_of_mem hi
  exact ((h.fits hb hpre).1.result hres).2

section Block

variable {idoms : Idoms} (hb : g.blocks[k]? = some b) {pre post : List Instr}
include hb

omit h in
theorem defines_of_definedBy (hpre : b.instrs = pre ++ post) (hp : g.DefinedBy k pre id p) :
    g.Defines p.1 id p.2 := by
  rcases hp with ⟨-, hd⟩ | ⟨hk, i, hi, hrest⟩
  · exact hd
  · exact ⟨b, i, hk ▸ hb, by simp [hpre, hi], hrest⟩

theorem entryAt?_defsAt (hpre : b.instrs = pre ++ post) (hp : g.DefinedBy k pre id p) :
    entryAt? (g.defsAt k pre) id = some (some p) := by
  obtain ⟨hnat, hlt⟩ := h.res_range (defines_of_definedBy hb hpre hp)
  obtain ⟨v, rfl⟩ := Int.eq_ofNat_of_zero_le hnat
  have hex : ∃ p, g.DefinedBy k pre v p := ⟨p, hp⟩
  have heq : hex.choose = p := by
    have := h.defines_unique (defines_of_definedBy hb hpre hex.choose_spec)
      (defines_of_definedBy hb hpre hp)
    exact Prod.ext this.1 this.2
  rw [entryAt?_natCast, defsAt, Array.getElem?_ofFn]
  simp [show v < g.varCount.toNat by omega, someDef, hex, heq]

theorem usable_of_inScope (hidoms : g.dominators = .ok idoms) (hpre : b.instrs = pre ++ post)
    (hv : g.InScope k pre v) : Usable idoms (g.defsAt k pre) k v := by
  cases v with
  | const t x => exact hv
  | var t id =>
    obtain ⟨ht, hid⟩ := hv
    refine ⟨ht, ?_⟩
    rcases hid with ⟨i, hi, hres, hid, hty⟩ | ⟨d, hdk, hd⟩
    · exact ⟨k, h.entryAt?_defsAt hb hpre (Or.inr ⟨rfl, i, hi, hres, hid, hty⟩),
        Idoms.dominates_self _ k⟩
    · exact ⟨d, h.entryAt?_defsAt hb hpre (Or.inl ⟨h.below_lt hdk, hd⟩), h.dominates_of_below hidoms hdk⟩

theorem not_definedBy (hpre : b.instrs = pre ++ i :: post) (hres : i.hasResult = true)
    (p : Nat × Ty) : ¬ g.DefinedBy k pre i.res p := by
  rintro (⟨hlt, hd⟩ | ⟨rfl, j, hj, hjres, hid, -⟩)
  · have hself : g.Defines k i.res i.ty := ⟨b, i, hb, by simp [hpre], hres, rfl, rfl⟩
    have := (h.defines_unique hd hself).1
    omega
  · obtain ⟨pre', post', rfl⟩ := append_of_mem hj
    have hsplit : b.instrs = pre' ++ j :: (post' ++ i :: post) := by simp [hpre]
    have := (h.unique hb hb hsplit hpre hjres hres hid).2
    simp at this

omit h hb in
theorem definedBy_snoc :
    g.DefinedBy k (pre ++ [i]) id p ↔
      g.DefinedBy k pre id p ∨ (i.hasResult = true ∧ i.res = id ∧ p = (k, i.ty)) := by
  simp only [DefinedBy, mem_append, mem_singleton, Prod.ext_iff]
  constructor
  · rintro (hlt | ⟨hk, j, hj | rfl, hres, hid, hty⟩)
    · exact Or.inl (Or.inl hlt)
    · exact Or.inl (Or.inr ⟨hk, j, hj, hres, hid, hty⟩)
    · exact Or.inr ⟨hres, hid, hk, hty.symm⟩
  · rintro ((hlt | ⟨hk, j, hj, hrest⟩) | ⟨hres, hid, hk, hty⟩)
    · exact Or.inl hlt
    · exact Or.inr ⟨hk, j, Or.inl hj, hrest⟩
    · exact Or.inr ⟨hk, i, Or.inr rfl, hres, hid, hty.symm⟩

theorem define_defsAt (hpre : b.instrs = pre ++ i :: post) :
    define (g.defsAt k pre) k i = .ok (g.defsAt k (pre ++ [i])) := by
  by_cases hres : i.hasResult = true
  · obtain ⟨hscalar, hnat, hlt⟩ := (h.fits hb hpre).1.result hres
    obtain ⟨n, hn⟩ := Int.eq_ofNat_of_zero_le hnat
    have hnone : (g.defsAt k pre)[n]? = some none :=
      defsAt_eq_none (by omega) fun p => hn ▸ h.not_definedBy hb hpre hres p
    have hdefine : define (g.defsAt k pre) k i =
        .ok ((g.defsAt k pre).setIfInBounds n (some (k, i.ty))) := by
      obtain ⟨op, t, m⟩ := i
      obtain rfl : m = (n : Int) := hn
      exact define_eq_ok hres hscalar hnone
    rw [hdefine]
    congr 1
    apply Array.ext_getElem?
    intro v
    rw [Array.getElem?_setIfInBounds, size_defsAt]
    split_ifs with he hsize
    · subst he
      have hsnoc : b.instrs = (pre ++ [i]) ++ post := by simp [hpre]
      have := h.entryAt?_defsAt hb hsnoc (definedBy_snoc.mpr (Or.inr ⟨hres, hn, rfl⟩))
      rw [← entryAt?_natCast]
      exact this.symm
    · omega
    · refine defsAt_congr fun p => ?_
      rw [definedBy_snoc]
      have : i.res ≠ v := by omega
      simp [this]
  · have hdefine : define (g.defsAt k pre) k i = .ok (g.defsAt k pre) := by
      simp [define, hres]
    rw [hdefine]
    congr 1
    apply Array.ext_getElem?
    intro v
    refine defsAt_congr fun p => ?_
    rw [definedBy_snoc]
    simp [hres]

theorem checkInstr_defsAt (hidoms : g.dominators = .ok idoms) (hpre : b.instrs = pre ++ i :: post) :
    checkInstr idoms k (g.defsAt k pre) i = .ok (g.defsAt k (pre ++ [i])) := by
  have hfits := (h.fits hb hpre).1
  exact checkInstr_ok.mpr ⟨fun v hv => h.usable_of_inScope hb hidoms hpre (hfits.operands v hv),
    hfits.shape, h.define_defsAt hb hpre⟩

theorem checkInstrs_defsAt (hidoms : g.dominators = .ok idoms) (hlast : b.tail? = some i)
    (hterm : i.isTerminator = true) (hpre : b.instrs = pre ++ post) :
    checkInstrs idoms k (g.defsAt k pre) post = .ok (g.defsAt k b.instrs) := by
  induction post generalizing pre with
  | nil =>
    rw [append_nil] at hpre
    rw [hpre]
    rfl
  | cons j rest ih =>
    refine checkInstrs_cons_ok.mpr ⟨_, ?_, h.checkInstr_defsAt hb hidoms hpre, ?_⟩
    · cases rest with
      | nil =>
        rw [Block.tail?, hpre, getLast?_append_cons, getLast?_singleton,
          Option.some.injEq] at hlast
        rw [hlast, hterm]
        rfl
      | cons j' rest =>
        cases hj : j.isTerminator with
        | false => rfl
        | true => simpa using (h.fits hb hpre).2 hj
    · exact ih (by simp [hpre])

omit h in
/-- The table behind block `k` is the table in front of the next one. -/
theorem defsAt_succ : g.defsAt k b.instrs = g.defsAt (k + 1) [] := by
  apply Array.ext_getElem?
  intro v
  refine defsAt_congr fun p => ?_
  simp only [DefinedBy, not_mem_nil, false_and, exists_false, and_false, or_false]
  constructor
  · rintro (⟨hlt, hd⟩ | ⟨rfl, i, hi, hrest⟩)
    · exact ⟨by omega, hd⟩
    · exact ⟨by omega, b, i, hb, hi, hrest⟩
  · rintro ⟨hlt, hd⟩
    rcases Nat.lt_succ_iff_lt_or_eq.mp hlt with hlt | rfl
    · exact Or.inl ⟨hlt, hd⟩
    · obtain ⟨b', i, hb', hi, hrest⟩ := hd
      cases hb.symm.trans hb'
      exact Or.inr ⟨rfl, i, hi, hrest⟩

end Block

/-- A finished tree passes the type checker. -/
theorem typecheck (hreached : g.Reached) (hclosed : g.Closed) (hne : g.blocks.size ≠ 0)
    (hroom : g.hasRoomFor 8 = true) : g.typecheck = .accepted := by
  obtain ⟨idoms, hidoms⟩ := h.dominators_eq hreached (Nat.pos_of_ne_zero hne)
  refine typecheck_eq_accepted.mpr ⟨hne, hroom, ⟨⟨idoms, fun k => g.defsAt k [], hidoms, ?_, ?_⟩⟩⟩
  · apply Array.ext_getElem?
    intro v
    rw [Array.getElem?_replicate]
    split_ifs with hv
    · refine defsAt_eq_none hv fun p => ?_
      simp [DefinedBy]
    · rw [Array.getElem?_eq_none (by rw [size_defsAt]; omega)]
  · intro k b hb
    obtain ⟨i, hi, hterm⟩ := hclosed hb
    refine ⟨h.label hb, ?_, ?_⟩
    · rintro hnil
      simp [Block.tail?, hnil] at hi
    · rw [← defsAt_succ hb]
      exact h.checkInstrs_defsAt hb hidoms hi hterm rfl

end Tree

/-- Instruction `i` is appended to block `k`, and fresh empty blocks are added behind the others. -/
structure Grown (g g' : Graph) (k : Nat) (b : Block) (i : Instr) : Prop where
  before : g.blocks[k]? = some b
  opened : ∀ j ∈ b.instrs, j.isTerminator = false
  after : g'.blocks[k]? = some { b with instrs := b.instrs ++ [i] }
  other : ∀ {j : Nat}, j ≠ k → j < g.blocks.size → g'.blocks[j]? = g.blocks[j]?
  fresh : ∀ {j : Nat}, g.blocks.size ≤ j → j < g'.blocks.size → g'.blocks[j]? = some ⟨j, []⟩
  result : i.hasResult = true → i.res = g.varCount ∧ i.res < g'.varCount
  varCount : g.varCount ≤ g'.varCount
  targets : ∀ {c t₀ t₁}, i.op = .br c t₀ t₁ → t₀ ≠ t₁ ∧ ∀ t, t = t₀ ∨ t = t₁ →
    (g.blocks.size : Int) ≤ t ∧ t < g'.blocks.size

namespace Grown

variable (h : g.Grown g' k b i)
include h

theorem lt_size : k < g.blocks.size :=
  (Array.getElem?_eq_some_iff.mp h.before).1

theorem block_cases {j : Nat} (hj : g'.blocks[j]? = some b') :
    (j = k ∧ b' = { b with instrs := b.instrs ++ [i] }) ∨ (j ≠ k ∧ g.blocks[j]? = some b') ∨
      (j ≠ k ∧ g.blocks.size ≤ j ∧ b' = ⟨j, []⟩) := by
  have hsize := (Array.getElem?_eq_some_iff.mp hj).1
  have hlt := h.lt_size
  by_cases hk : j = k
  · subst hk
    exact Or.inl ⟨rfl, Option.some.inj (hj.symm.trans h.after)⟩
  · rcases Nat.lt_or_ge j g.blocks.size with hold | hnew
    · exact Or.inr (Or.inl ⟨hk, h.other hk hold ▸ hj⟩)
    · exact Or.inr (Or.inr ⟨hk, hnew, Option.some.inj (hj.symm.trans (h.fresh hnew hsize))⟩)

theorem edge_iff {p : Nat} {t : Int} :
    g'.Edge p t ↔ g.Edge p t ∨ (p = k ∧ ∃ c t₀ t₁, i.op = .br c t₀ t₁ ∧ (t = t₀ ∨ t = t₁)) := by
  constructor
  · rintro ⟨b', j, c, t₀, t₁, hb', hj, hop, ht⟩
    rcases h.block_cases hb' with ⟨rfl, rfl⟩ | ⟨-, hold⟩ | ⟨-, -, rfl⟩
    · simp only [Block.tail?, getLast?_append, getLast?_singleton, Option.some_or,
        Option.some.injEq] at hj
      exact Or.inr ⟨rfl, c, t₀, t₁, hj ▸ hop, ht⟩
    · exact Or.inl ⟨b', j, c, t₀, t₁, hold, hj, hop, ht⟩
    · simp [Block.tail?] at hj
  · rintro (⟨b', j, c, t₀, t₁, hb', hj, hop, ht⟩ | ⟨rfl, c, t₀, t₁, hop, ht⟩)
    · have hne : p ≠ k := by
        rintro rfl
        cases h.before.symm.trans hb'
        have := h.opened j (mem_of_getLast? hj)
        simp [Instr.isTerminator, Op.isTerminator, hop] at this
      have hlt := (Array.getElem?_eq_some_iff.mp hb').1
      exact ⟨b', j, c, t₀, t₁, (h.other hne hlt).trans hb', hj, hop, ht⟩
    · exact ⟨_, i, c, t₀, t₁, h.after, by simp [Block.tail?], hop, ht⟩

theorem below {j : Nat} (hd : g.Below d j) : g'.Below d j := by
  induction hd with
  | single he => exact .single (h.edge_iff.mpr (Or.inl he))
  | tail _ he ih => exact .tail ih (h.edge_iff.mpr (Or.inl he))

theorem defines {t : Ty} (hd : g.Defines d id t) : g'.Defines d id t := by
  obtain ⟨b', j, hb', hj, hrest⟩ := hd
  by_cases hk : d = k
  · subst hk
    cases h.before.symm.trans hb'
    exact ⟨_, j, h.after, by simp [hj], hrest⟩
  · have hlt := (Array.getElem?_eq_some_iff.mp hb').1
    exact ⟨b', j, (h.other hk hlt).trans hb', hj, hrest⟩

theorem inScope {j : Nat} {pre : List Instr} (hv : g.InScope j pre v) : g'.InScope j pre v := by
  cases v with
  | const t x => exact hv
  | var t id =>
    obtain ⟨ht, hpre | ⟨d, hdj, hd⟩⟩ := hv
    · exact ⟨ht, Or.inl hpre⟩
    · exact ⟨ht, Or.inr ⟨d, h.below hdj, h.defines hd⟩⟩

theorem instrFits {j : Nat} {pre : List Instr} {i' : Instr} (hi : g.InstrFits j pre i') :
    g'.InstrFits j pre i' where
  shape := hi.shape
  operands v hv := h.inScope (hi.operands v hv)
  result hres := by
    obtain ⟨hscalar, hnat, hlt⟩ := hi.result hres
    exact ⟨hscalar, hnat, lt_of_lt_of_le hlt h.varCount⟩

end Grown

theorem InScope.append {pre : List Instr} (is : List Instr) (hv : g.InScope k pre v) :
    g.InScope k (pre ++ is) v := by
  cases v with
  | const t x => exact hv
  | var t id =>
    obtain ⟨ht, ⟨i, hi, hrest⟩ | hbelow⟩ := hv
    · exact ⟨ht, Or.inl ⟨i, mem_append_left is hi, hrest⟩⟩
    · exact ⟨ht, Or.inr hbelow⟩

/-- What may be used in a block may be used in the blocks its branch opens. -/
theorem InScope.child {pre : List Instr} (hb : g.blocks[k]? = some b)
    (hpre : ∀ i ∈ pre, i ∈ b.instrs) {j : Nat} (he : g.Edge k j) (hv : g.InScope k pre v) :
    g.InScope j [] v := by
  cases v with
  | const t x => exact hv
  | var t id =>
    obtain ⟨ht, ⟨i, hi, hrest⟩ | ⟨d, hdk, hd⟩⟩ := hv
    · exact ⟨ht, Or.inr ⟨k, .single he, b, i, hb, hpre i hi, hrest⟩⟩
    · exact ⟨ht, Or.inr ⟨d, .tail hdk he, hd⟩⟩

theorem snoc_eq_append_cons {is pre post : List Instr} {i' : Instr}
    (h : is ++ [i] = pre ++ i' :: post) :
    (post = [] ∧ pre = is ∧ i' = i) ∨ ∃ post', post = post' ++ [i] ∧ is = pre ++ i' :: post' := by
  rcases eq_nil_or_concat post with rfl | ⟨post', j, rfl⟩
  · obtain ⟨rfl, hi⟩ := append_inj' h rfl
    simp only [cons.injEq, and_true] at hi
    exact Or.inl ⟨rfl, rfl, hi.symm⟩
  · rw [concat_eq_append, ← cons_append, ← append_assoc] at h
    obtain ⟨rfl, hi⟩ := append_inj' h rfl
    simp only [cons.injEq, and_true] at hi
    exact Or.inr ⟨post', by simp [hi], rfl⟩

namespace Tree

theorem grown_cases (h : g.Grown g' k b i) {j : Nat} {pre post : List Instr} {i' : Instr}
    (hb' : g'.blocks[j]? = some b') (hi' : b'.instrs = pre ++ i' :: post) :
    (j = k ∧ pre = b.instrs ∧ i' = i ∧ post = []) ∨
      ∃ b₀ post₀, g.blocks[j]? = some b₀ ∧ b₀.instrs = pre ++ i' :: post₀ ∧
        (i'.isTerminator = true → post = post₀) := by
  rcases h.block_cases hb' with ⟨rfl, rfl⟩ | ⟨-, hold⟩ | ⟨-, -, rfl⟩
  · rcases snoc_eq_append_cons hi' with ⟨rfl, rfl, rfl⟩ | ⟨post', rfl, hpost'⟩
    · exact Or.inl ⟨rfl, rfl, rfl, rfl⟩
    · have : i'.isTerminator = false := h.opened i' (by simp [hpost'])
      exact Or.inr ⟨b, post', h.before, hpost', by simp [this]⟩
  · exact Or.inr ⟨b', post, hold, hi', fun _ => rfl⟩
  · simp at hi'

/-- A tree stays one when an instruction that fits is appended. -/
theorem grow (ht : g.Tree) (h : g.Grown g' k b i)
    (hshape : checkShape i = .ok ()) (hops : ∀ v ∈ i.op.operands, g.InScope k b.instrs v)
    (hres : i.hasResult = true → i.ty.IsScalar) (hnat : 0 ≤ g.varCount) : g'.Tree := by
  have hfits : g'.InstrFits k b.instrs i := by
    refine ⟨hshape, fun v hv => h.inScope (hops v hv), fun hi => ⟨hres hi, ?_⟩⟩
    have := h.result hi
    omega
  have hold : ∀ {j : Nat} {b₀ : Block} {pre post : List Instr} {i' : Instr},
      g.blocks[j]? = some b₀ → b₀.instrs = pre ++ i' :: post → i'.hasResult = true →
      i'.res < g.varCount :=
    fun hb₀ hi' hi => ((ht.fits hb₀ hi').1.result hi).2.2
  have hsize : g.blocks.size ≤ g'.blocks.size := by
    by_contra hlt
    have hk' := (Array.getElem?_eq_some_iff.mp h.after).1
    have hother := h.other (j := g'.blocks.size) (by omega) (by omega)
    rw [Array.getElem?_eq_none (Nat.le_refl _), Array.getElem?_eq_getElem (by omega)] at hother
    cases hother
  refine ⟨?_, ?_, ?_, ?_, ?_, ?_⟩
  · intro j b' hb'
    rcases h.block_cases hb' with ⟨rfl, rfl⟩ | ⟨-, hb'⟩ | ⟨-, -, rfl⟩
    · have := ht.label h.before
      exact this
    · exact ht.label hb'
    · rfl
  · intro j b' pre i' post hb' hi'
    rcases grown_cases h hb' hi' with ⟨rfl, rfl, rfl, rfl⟩ | ⟨b₀, post₀, hb₀, hi₀, hpost⟩
    · exact ⟨hfits, fun _ => rfl⟩
    · exact ⟨h.instrFits (ht.fits hb₀ hi₀).1,
        fun hterm => (hpost hterm).trans ((ht.fits hb₀ hi₀).2 hterm)⟩
  · intro j j' b₁ b₂ pre pre' i₁ i₂ post post' hb₁ hb₂ hi₁ hi₂ hres₁ hres₂ heq
    rcases grown_cases h hb₁ hi₁ with ⟨rfl, rfl, rfl, rfl⟩ | ⟨c₁, post₁, hc₁, hi₁, -⟩
    · rcases grown_cases h hb₂ hi₂ with ⟨rfl, rfl, rfl, rfl⟩ | ⟨c₂, post₂, hc₂, hi₂, -⟩
      · exact ⟨rfl, rfl⟩
      · have := h.result hres₁
        have := hold hc₂ hi₂ hres₂
        omega
    · rcases grown_cases h hb₂ hi₂ with ⟨rfl, rfl, rfl, rfl⟩ | ⟨c₂, post₂, hc₂, hi₂, -⟩
      · have := h.result hres₂
        have := hold hc₁ hi₁ hres₁
        omega
      · exact ht.unique hc₁ hc₂ hi₁ hi₂ hres₁ hres₂ heq
  · intro p t he
    rcases h.edge_iff.mp he with he | ⟨rfl, c, t₀, t₁, hop, hmem⟩
    · have := ht.edge he
      omega
    · have := (h.targets hop).2 t hmem
      have := h.lt_size
      omega
  · intro p p' t he he'
    rcases h.edge_iff.mp he with he | ⟨rfl, c, t₀, t₁, hop, hmem⟩
    · rcases h.edge_iff.mp he' with he' | ⟨rfl, c, t₀, t₁, hop, hmem⟩
      · exact ht.parent he he'
      · have := (h.targets hop).2 t hmem
        have := ht.edge he
        omega
    · rcases h.edge_iff.mp he' with he' | ⟨rfl, -⟩
      · have := (h.targets hop).2 t hmem
        have := ht.edge he'
        omega
      · rfl
  · intro j b' i' c t₀ t₁ hb' hi' hop
    rcases h.block_cases hb' with ⟨rfl, rfl⟩ | ⟨-, hb'⟩ | ⟨-, -, rfl⟩
    · simp only [Block.tail?, getLast?_append, getLast?_singleton, Option.some_or,
        Option.some.injEq] at hi'
      exact (h.targets (hi' ▸ hop)).1
    · exact ht.sides hb' hi' hop
    · simp [Block.tail?] at hi'

end Tree

end Graph

end Dynarec
