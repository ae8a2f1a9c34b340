import Dynarec.Proofs.Graph.Builder

/-!
# Typing of building steps

A step that starts in a tree whose current block is open leaves such a tree and returns a value of the
right type that may be used from there on. It fails only when an arena is full or when registers are
bound at different widths. The blocks that wait to be filled are part of the judgement, so that a graph
in which none is left is finished and passes the type checker. So is the room that may still be taken
of the arenas: every step has its cost, and an arena that holds what may be taken is never full.
-/
namespace Dynarec

open Typing Builder Instr List Ty

variable {left left' : Allowance} {w : Terms} {v x y : Value} {b b' : Builder} {e : BuildError}

def BuildError.IsCapacity : BuildError → Prop
  | .blocksFull _ | .instrsFull _ | .paramsFull _ => True
  | _ => False

/-- Those of the first `n` registers that are bound are bound at one width. -/
def Workspace.Uniform (w : Workspace) (n : Nat) (t : Ty) : Prop :=
  ∀ r : Nat, r < n → (w.binding r).isBound = true → (w.binding r).ty = t

/-- How much may be taken of the arenas. What a call takes of the parameters is counted in thirds. -/
structure Allowance where
  blocks : Nat := 0
  instrs : Nat := 0
  thirds : Nat := 0

def Allowance.plus (left : Allowance) (k n c : Nat) : Allowance :=
  ⟨left.blocks + k, left.instrs + n, left.thirds + c⟩

theorem Allowance.plus_plus (left : Allowance) (k n c k' n' c' : Nat) :
    (left.plus k n c).plus k' n' c' = left.plus (k + k') (n + n') (c + c') := by
  simp only [plus, Nat.add_assoc]

/-- The terms of building: the workspace at the start, the only function that is called, with two
parameters, and how much may be taken of the arenas. -/
structure Terms where
  space : Workspace
  callee : Option Func
  limit : Allowance

namespace Terms

/-- What is left may still be taken. -/
structure Leaves (w : Terms) (left : Allowance) (used : Arenas) : Prop where
  blocks : used.blocks + left.blocks ≤ w.space.used.blocks + w.limit.blocks
  instrs : used.instrs + left.instrs ≤ w.space.used.instrs + w.limit.instrs
  params : ∃ calls, used.params = w.space.used.params + 2 * calls ∧ 3 * calls + left.thirds ≤ w.limit.thirds

/-- The arenas hold all that may be taken. -/
structure Fits (w : Terms) : Prop where
  blocks : w.space.used.blocks + w.limit.blocks ≤ w.space.capacity.blocks
  instrs : w.space.used.instrs + w.limit.instrs ≤ w.space.capacity.instrs
  params : w.space.used.params + 2 * (w.limit.thirds / 3) ≤ w.space.capacity.params

/-- The instructions that are built: no slots, registers only where they are bound, arithmetic at the
widths of a register, and calls of the one function. -/
def Admits (w : Terms) (i : Instr) : Prop :=
  match i.op with
  | .alloc _ => False
  | .binop _ _ _ => i.ty = i32 ∨ i.ty = i64
  | .read reg | .write reg _ => (w.space.binding reg).isBound = true
  | .call target _ => target.isSome = true ∧ target = w.callee
  | _ => True

variable {used : Arenas} {k n c : Nat}

theorem Leaves.of_le (h : w.Leaves left used) (hblocks : left'.blocks ≤ left.blocks)
    (hinstrs : left'.instrs ≤ left.instrs) (hthirds : left'.thirds ≤ left.thirds) : w.Leaves left' used := by
  obtain ⟨hb, hi, calls, hparams, hcalls⟩ := h
  exact ⟨by omega, by omega, calls, hparams, by omega⟩

theorem Leaves.instr (h : w.Leaves (left.plus 0 1 0) used) :
    w.Leaves left { used with instrs := used.instrs + 1 } := by
  obtain ⟨hb, hi, hparams⟩ := h
  exact ⟨hb, by simp only [Allowance.plus] at hi ⊢; omega, hparams⟩

theorem Leaves.block (h : w.Leaves (left.plus 1 0 0) used) :
    w.Leaves left { used with blocks := used.blocks + 1 } := by
  obtain ⟨hb, hi, hparams⟩ := h
  exact ⟨by simp only [Allowance.plus] at hb ⊢; omega, hi, hparams⟩

theorem Leaves.call (h : w.Leaves (left.plus 0 0 3) used) :
    w.Leaves left { used with params := used.params + 2 } := by
  obtain ⟨hb, hi, calls, hparams, hcalls⟩ := h
  refine ⟨hb, hi, calls + 1, ?_, ?_⟩
  all_goals simp only [Allowance.plus] at hcalls ⊢; omega

end Terms

def Block.IsClosed (b : Block) : Prop :=
  ∃ i, b.tail? = some i ∧ i.isTerminator = true

namespace Builder

/-- A block that is still empty, and the values that may be used in it. -/
structure Waiting where
  block : Nat
  scope : List Value

/-- The graph is a tree in which the blocks of `waiting` are empty and all others are closed, except
for the one that is being filled. -/
structure Underway (w : Terms) (left : Allowance) (waiting : List Waiting) (filling : Option Nat)
    (b : Builder) : Prop where
  error : b.error = none
  bindings : b.space.bindings = w.space.bindings
  capacity : b.space.capacity = w.space.capacity
  leaves : w.Leaves left b.space.used
  root : b.graph.blocks.size ≠ 0
  tree : b.graph.Tree
  admits : ∀ {j : Nat} {blk}, b.graph.blocks[j]? = some blk → ∀ i ∈ blk.instrs, w.Admits i
  reached : b.graph.Reached
  varCount : 0 ≤ b.graph.varCount ∧ b.graph.varCount ≤ b.space.used.instrs ∧
    b.graph.varCount ≤ w.space.capacity.instrs
  nodup : (waiting.map Waiting.block).Nodup
  empty : ∀ p ∈ waiting, b.graph.blocks[p.block]? = some ⟨p.block, []⟩
  scopes : ∀ p ∈ waiting, ∀ v ∈ p.scope, b.graph.InScope p.block [] v
  closed : ∀ {j : Nat} {blk}, b.graph.blocks[j]? = some blk →
    j ∈ waiting.map Waiting.block ∨ filling = some j ∨ blk.IsClosed

/-- Where steps are made: on which terms, with how many registers of which width, and in which block,
while others wait. -/
structure Site where
  terms : Terms
  registers : Nat
  width : Ty
  waiting : List Waiting
  block : Nat

namespace Site

variable (s : Site)

/-- The block of the site is open, and the values of `Γ` may be used in it. -/
structure Ready (left : Allowance) (Γ : List Value) (b : Builder) : Prop
    extends Underway s.terms left s.waiting (some s.block) b where
  current : b.current = some s.block
  notWaiting : s.block ∉ s.waiting.map Waiting.block
  scope : ∃ blk, b.graph.blocks[s.block]? = some blk ∧
    (∀ i ∈ blk.instrs, i.isTerminator = false) ∧ ∀ v ∈ Γ, b.graph.InScope s.block blk.instrs v

/-- A failure that the bindings and capacities explain. -/
def Stuck (b : Builder) : Prop :=
  ∃ e, b.error = some e ∧ s.terms.Leaves {} b.space.used ∧
    (e.IsCapacity ∧ ¬ s.terms.Fits ∨ ¬ s.terms.space.Uniform s.registers s.width)

end Site

end Builder

/-- A literal of type `t`, or one of the values `Γ`. -/
def Value.Known (Γ : List Value) (t : Ty) (v : Value) : Prop :=
  v.ty = t ∧ (v ∈ Γ ∨ t.IsScalar ∧ ∃ x, v = Value.lit t x)

namespace Value.Known

variable {Γ : List Value} {t : Ty} {u : Value}

theorem head (h : v.ty = t) : Known (v :: Γ) t v :=
  ⟨h, Or.inl mem_cons_self⟩

theorem tail (h : Known Γ t v) : Known (u :: Γ) t v := by
  obtain ⟨hty, hv | hlit⟩ := h
  · exact ⟨hty, Or.inl (mem_cons_of_mem u hv)⟩
  · exact ⟨hty, Or.inr hlit⟩

theorem lit (ht : t.IsScalar) (x : UInt64) : Known Γ t (Value.lit t x) :=
  ⟨rfl, Or.inr ⟨ht, x, rfl⟩⟩

end Value.Known

namespace Builder.Site.Ready

variable {s : Site} {Γ : List Value} (h : s.Ready left Γ b)
include h

theorem weaken {Γ' : List Value} (hsub : ∀ v ∈ Γ', v ∈ Γ) : s.Ready left Γ' b := by
  obtain ⟨blk, hblk, hopen, hscope⟩ := h.scope
  exact { h with scope := ⟨blk, hblk, hopen, fun v hv => hscope v (hsub v hv)⟩ }

theorem inScope {blk : Block} (hblk : b.graph.blocks[s.block]? = some blk) {t : Ty}
    (hv : v.Known Γ t) : b.graph.InScope s.block blk.instrs v := by
  obtain ⟨blk', hblk', -, hscope⟩ := h.scope
  cases hblk.symm.trans hblk'
  obtain ⟨-, hmem | ⟨ht, x, rfl⟩⟩ := hv
  · exact hscope v hmem
  · exact ⟨ht, t.fits_and_mask x⟩

theorem isTerminated : b.isTerminated = false := by
  obtain ⟨blk, hblk, hopen, -⟩ := h.scope
  simp only [Builder.isTerminated, h.current, hblk, Option.bind_some]
  split
  · rename_i i hi
    exact hopen i (mem_of_getLast? hi)
  · rfl

/-- What holds of the graph when an instruction is appended and the blocks `fresh` are opened. -/
theorem grow {blk : Block} {i : Instr} (fresh : List Waiting)
    (hg : b.graph.Grown b'.graph s.block blk i) (hshape : checkShape i = .ok ())
    (hops : ∀ v ∈ i.op.operands, b.graph.InScope s.block blk.instrs v)
    (hres : i.hasResult = true → i.ty.IsScalar) (hadmits : s.terms.Admits i)
    (herror : b'.error = none) (hbindings : b'.space.bindings = b.space.bindings)
    (hcapacity : b'.space.capacity = b.space.capacity)
    (hleaves : s.terms.Leaves left' b'.space.used)
    (hroom : b.space.used.instrs < b.space.capacity.instrs)
    (hused : b'.space.used.instrs = b.space.used.instrs + 1)
    (hvar : b'.graph.varCount ≤ b.graph.varCount + 1) (hfresh : ∀ j, j ∈ fresh.map Waiting.block ↔
      b.graph.blocks.size ≤ j ∧ j < b'.graph.blocks.size) (hnodup : (fresh.map Waiting.block).Nodup)
    (hopened : ∀ p ∈ fresh, (∃ c t₀ t₁, i.op = .br c t₀ t₁ ∧
      ((p.block : Int) = t₀ ∨ (p.block : Int) = t₁)) ∧ ∀ v ∈ p.scope, v ∈ Γ) :
    Underway s.terms left' (fresh ++ s.waiting) (if i.isTerminator then none else some s.block) b' := by
  have hold : ∀ p ∈ s.waiting, p.block < b.graph.blocks.size :=
    fun p hp => (Array.getElem?_eq_some_iff.mp (h.empty p hp)).1
  have hne : ∀ p ∈ s.waiting, p.block ≠ s.block := by
    intro p hp heq
    exact h.notWaiting (heq ▸ mem_map_of_mem hp)
  have hmem : ∀ p ∈ fresh, b.graph.blocks.size ≤ p.block ∧ p.block < b'.graph.blocks.size :=
    fun p hp => (hfresh _).mp (mem_map_of_mem hp)
  have hedge : ∀ p ∈ fresh, b'.graph.Edge s.block p.block := by
    intro p hp
    obtain ⟨⟨c, t₀, t₁, hop, ht⟩, -⟩ := hopened p hp
    exact hg.edge_iff.mpr (Or.inr ⟨rfl, c, t₀, t₁, hop, ht⟩)
  have hlt := (Array.getElem?_eq_some_iff.mp hg.after).1
  refine ⟨herror, hbindings.trans h.bindings, hcapacity.trans h.capacity, hleaves, by omega,
    h.tree.grow hg hshape hops hres h.varCount.1, ?_, ?_, ?_, ?_, ?_, ?_, ?_⟩
  · intro j blk' hj
    rcases hg.block_cases hj with ⟨rfl, rfl⟩ | ⟨-, hj⟩ | ⟨-, -, rfl⟩
    · intro i' hi'
      rcases mem_append.mp hi' with hi' | hi'
      · exact h.admits hg.before i' hi'
      · rw [mem_singleton.mp hi']
        exact hadmits
    · exact h.admits hj
    · intro i' hi'
      cases hi'
  · intro j hpos hlt
    rcases Nat.lt_or_ge j b.graph.blocks.size with hj | hj
    · obtain ⟨p, hp⟩ := h.reached j hpos hj
      exact ⟨p, hg.edge_iff.mpr (Or.inl hp)⟩
    · obtain ⟨p, hp, rfl⟩ := mem_map.mp ((hfresh j).mpr ⟨hj, hlt⟩)
      exact ⟨s.block, hedge p hp⟩
  · have := h.varCount
    have := hg.varCount
    rw [h.capacity] at hroom
    omega
  · rw [map_append]
    refine nodup_append.mpr ⟨hnodup, h.nodup, ?_⟩
    rintro j hj _ hj' rfl
    obtain ⟨p, hp, rfl⟩ := mem_map.mp hj'
    have := ((hfresh _).mp hj).1
    have := hold p hp
    omega
  · intro p hp
    rcases mem_append.mp hp with hp | hp
    · exact hg.fresh (hmem p hp).1 (hmem p hp).2
    · rw [hg.other (hne p hp) (hold p hp)]
      exact h.empty p hp
  · intro p hp v hv
    rcases mem_append.mp hp with hp | hp
    · obtain ⟨blk', hblk', -, hscope⟩ := h.scope
      cases hg.before.symm.trans hblk'
      have hin := hg.inScope (hscope v ((hopened p hp).2 v hv))
      exact hin.child hg.after (fun i hi => mem_append_left _ hi) (hedge p hp)
    · exact hg.inScope (h.scopes p hp v hv)
  · intro j blk' hj
    rcases hg.block_cases hj with ⟨rfl, rfl⟩ | ⟨hk, hj⟩ | ⟨-, hsize, rfl⟩
    · cases hterm : i.isTerminator with
      | true => exact Or.inr (Or.inr ⟨i, by simp [Block.tail?], hterm⟩)
      | false => exact Or.inr (Or.inl (by simp))
    · rcases h.closed hj with hwait | hfill | hclosed
      · rw [map_append]
        exact Or.inl (mem_append_right _ hwait)
      · exact absurd (Option.some.inj hfill).symm hk
      · exact Or.inr (Or.inr hclosed)
    · have hlt := (Array.getElem?_eq_some_iff.mp hj).1
      rw [map_append]
      exact Or.inl (mem_append_left _ ((hfresh j).mpr ⟨hsize, hlt⟩))

omit h in
theorem push_grown {blk : Block} (hblk : b.graph.blocks[s.block]? = some blk)
    (hopen : ∀ i ∈ blk.instrs, i.isTerminator = false) {op : Op} (t : Ty)
    (hbr : ∀ c t₀ t₁, op ≠ .br c t₀ t₁) :
    b.graph.Grown (b.push s.block (b.numbered op t)).graph s.block blk (b.numbered op t) where
  before := hblk
  opened := hopen
  after := by simp [push, Array.getElem?_modify, hblk]
  other {j} hj _ := by simp [push, Array.getElem?_modify, Ne.symm hj]
  fresh {j} hge hlt := by
    simp only [push, Array.size_modify] at hlt
    omega
  result hres := by
    refine ⟨numbered_res hres, ?_⟩
    simp only [push, hres, if_true, numbered_res hres]
    omega
  varCount := by
    simp only [push]
    split_ifs <;> omega
  targets hop := absurd ((numbered_op b op t).symm.trans hop) (hbr _ _ _)

omit h in
theorem push (h : s.Ready (left.plus 0 1 0) Γ b) {op : Op} {t : Ty}
    (hops : ∀ v ∈ op.operands, ∃ u, v.Known Γ u) (hshape : checkShape ⟨op, t, 0⟩ = .ok ())
    (hres : hasResult ⟨op, t, 0⟩ = true → t.IsScalar) (hbr : ∀ c t₀ t₁, op ≠ .br c t₀ t₁)
    (hadmits : s.terms.Admits ⟨op, t, 0⟩) (hroom : b.space.used.instrs < b.space.capacity.instrs) :
    Underway s.terms left s.waiting (if op.isTerminator then none else some s.block)
        (b.push s.block (b.numbered op t)) ∧
      (op.isTerminator = false → s.Ready left Γ (b.push s.block (b.numbered op t)) ∧
        (hasResult ⟨op, t, 0⟩ = true →
          s.Ready left ((b.numbered op t).result :: Γ) (b.push s.block (b.numbered op t)))) := by
  obtain ⟨blk, hblk, hopen, hscope⟩ := h.scope
  have hop := numbered_op b op t
  have hty := numbered_ty b op t
  have hg := push_grown hblk hopen t hbr
  have hhas : (b.numbered op t).hasResult = hasResult ⟨op, t, 0⟩ := hasResult_congr hop hty
  have hunder := h.grow [] hg (by rw [← hshape]; simp only [checkShape, hop, hty])
    (by
      intro v hv
      obtain ⟨u, hu⟩ := hops v (hop ▸ hv)
      exact h.inScope hblk hu)
    (by rw [hhas, hty]; exact hres) (by simpa only [Terms.Admits, hop, hty] using hadmits) h.error rfl rfl
    h.leaves.instr hroom rfl
    (by simp only [Builder.push]; split_ifs <;> omega)
    (by simp [Builder.push]) nodup_nil (by simp)
  rw [nil_append, isTerminator, hop] at hunder
  refine ⟨hunder, fun hterm => ?_⟩
  rw [hterm] at hunder
  have hopen' : ∀ i ∈ blk.instrs ++ [b.numbered op t], i.isTerminator = false := by
    intro i hi
    rcases mem_append.mp hi with hi | hi
    · exact hopen i hi
    · rw [mem_singleton.mp hi, isTerminator, hop, hterm]
  have hscope' : ∀ v ∈ Γ, (b.push s.block (b.numbered op t)).graph.InScope s.block
      (blk.instrs ++ [b.numbered op t]) v :=
    fun v hv => (hg.inScope (hscope v hv)).append _
  have hready : s.Ready left Γ (b.push s.block (b.numbered op t)) :=
    { hunder with
      current := h.current
      notWaiting := h.notWaiting
      scope := ⟨_, hg.after, hopen', hscope'⟩ }
  refine ⟨hready, fun hhas' => { hready with scope := ⟨_, hg.after, hopen', ?_⟩ }⟩
  intro v hv
  rcases mem_cons.mp hv with rfl | hv
  · have hscalar := hres hhas'
    rw [← hty] at hscalar
    exact ⟨hscalar, Or.inl ⟨_, by simp, hhas.trans hhas', rfl, rfl⟩⟩
  · exact hscope' v hv

theorem isScalar {t : Ty} (hv : v.Known Γ t) : t.IsScalar := by
  obtain ⟨blk, hblk, -, -⟩ := h.scope
  have hin := h.inScope hblk hv
  rw [← hv.1]
  cases v with
  | const t x => exact hin.1
  | var t id => exact hin.1

theorem of_le (hblocks : left'.blocks ≤ left.blocks) (hinstrs : left'.instrs ≤ left.instrs)
    (hthirds : left'.thirds ≤ left.thirds) : s.Ready left' Γ b :=
  { h with leaves := h.leaves.of_le hblocks hinstrs hthirds }

/-- A step that finds an arena full although something may be taken of it is stuck. -/
theorem stuck (he : b'.error = some e) (hcapacity : e.IsCapacity)
    (hused : b'.space.used = b.space.used) (hfits : ¬ s.terms.Fits) : s.Stuck b' :=
  ⟨e, he, hused ▸ h.leaves.of_le (Nat.zero_le _) (Nat.zero_le _) (Nat.zero_le _), Or.inl ⟨hcapacity, hfits⟩⟩

omit h in
theorem emit (h : s.Ready (left.plus 0 1 0) Γ b) (op : Op) (t : Ty) :
    s.Stuck (emit op t b).2 ∨ (b.space.used.instrs < b.space.capacity.instrs ∧
      emit op t b = ((b.numbered op t).result, b.push s.block (b.numbered op t))) := by
  rcases emit_cases op t h.error with ⟨hterm, -⟩ | ⟨hfull, heq⟩ | ⟨k, hk, -, hroom, heq⟩
  · rw [h.isTerminated] at hterm
    cases hterm
  · rw [heq]
    refine Or.inl (h.stuck rfl trivial rfl fun hfits => ?_)
    have := hfits.instrs
    have := h.leaves.instrs
    simp only [Allowance.plus] at this
    rw [h.capacity] at hfull
    omega
  · cases h.current.symm.trans hk
    exact Or.inr ⟨hroom, heq⟩

omit h in
theorem branch (h : s.Ready (left.plus 2 1 0) Γ b) {c : Value} (hc : c.Known Γ i1)
    (hroom : b.space.used.instrs < b.space.capacity.instrs) :
    Underway s.terms left
      (⟨b.graph.blocks.size + 1, Γ⟩ :: ⟨b.graph.blocks.size, Γ⟩ :: s.waiting) none
      (b.withBlock.withBlock.push s.block (b.withBlock.withBlock.numbered
        (.br c b.graph.blocks.size (b.graph.blocks.size + 1 : Nat)) void)) := by
  obtain ⟨blk, hblk, hopen, -⟩ := h.scope
  have hlt : s.block < b.graph.blocks.size := (Array.getElem?_eq_some_iff.mp hblk).1
  set n := b.graph.blocks.size with hn
  set b₂ := b.withBlock.withBlock with hb₂
  have hold : ∀ {j : Nat}, j < n → b₂.graph.blocks[j]? = b.graph.blocks[j]? := by
    intro j hj
    rw [hb₂, withBlock_getElem? (by simp; omega), withBlock_getElem? hj]
  have hsize : b₂.graph.blocks.size = n + 2 := by simp [hb₂, hn]
  have hnew : ∀ {j : Nat}, n ≤ j → j < n + 2 → b₂.graph.blocks[j]? = some ⟨j, []⟩ := by
    intro j hge hlt
    rcases Nat.lt_or_eq_of_le hge with hgt | rfl
    · obtain rfl : j = b.withBlock.graph.blocks.size := by simp; omega
      exact withBlock_getElem?_size _
    · rw [hb₂, withBlock_getElem? (by rw [withBlock_size]; omega)]
      exact withBlock_getElem?_size b
  set i := b₂.numbered (.br c n (n + 1 : Nat)) void
  have hop : i.op = .br c n (n + 1 : Nat) := numbered_op _ _ _
  have hres : i.hasResult = false := by simp [hasResult, hop]
  have hvar : (b₂.push s.block i).graph.varCount = b.graph.varCount := by
    simp [Builder.push, hres, hb₂, withBlock]
  have hsize' : (b₂.push s.block i).graph.blocks.size = n + 2 := by
    simp [Builder.push, hsize]
  have hg : b.graph.Grown (b₂.push s.block i).graph s.block blk i := by
    refine ⟨hblk, hopen, ?_, ?_, ?_, ?_, hvar.ge, ?_⟩
    · simp [Builder.push, Array.getElem?_modify, hold hlt, hblk]
    · intro j hne hj
      simp [Builder.push, Array.getElem?_modify, Ne.symm hne, hold hj]
    · intro j hge hj
      rw [hsize'] at hj
      simp [Builder.push, Array.getElem?_modify, hnew hge hj, show s.block ≠ j by omega]
    · simp [hres]
    · intro c' t₀ t₁ hop'
      rw [hop] at hop'
      simp only [Op.br.injEq] at hop'
      refine ⟨by omega, fun t ht => ?_⟩
      rw [hsize']
      omega
  have hunder := h.grow [⟨n + 1, Γ⟩, ⟨n, Γ⟩] hg
    (by simp [checkShape, hop, hc.1]) (by simpa [hop, Op.operands] using h.inScope hblk hc)
    (by simp [hres]) (by simp [Terms.Admits, hop]) h.error rfl rfl
    (Terms.Leaves.instr (Terms.Leaves.block (Terms.Leaves.block h.leaves))) hroom rfl (by omega)
    (by intro j; rw [hsize']; simp; omega) (by simp)
    (by
      simp only [mem_cons, not_mem_nil, or_false]
      rintro p (rfl | rfl)
      · exact ⟨⟨c, n, (n + 1 : Nat), hop, Or.inr rfl⟩, fun _ hv => hv⟩
      · exact ⟨⟨c, n, (n + 1 : Nat), hop, Or.inl rfl⟩, fun _ hv => hv⟩)
  rw [isTerminator, hop] at hunder
  exact hunder

end Builder.Site.Ready

namespace Builder

variable {α β : Type}

namespace Site

variable (s : Site)

/-- From a ready site where `k` blocks, `n` instructions and `c` thirds of a call more may be taken, `a`
gets stuck or ends as `post` says of what is left. -/
def Spec (Γ : List Value) (k n c : Nat) (a : Build α) (post : Allowance → α → Builder → Prop) : Prop :=
  ∀ b left, s.Ready (left.plus k n c) Γ b → s.Stuck (a b).2 ∨ post left (a b).1 (a b).2

def Yields (Γ : List Value) (n : Nat) (a : Build Value) (t : Ty) : Prop :=
  s.Spec Γ 0 n 0 a fun left v b => v.ty = t ∧ s.Ready left (v :: Γ) b

def Runs (Γ : List Value) (n : Nat) (a : Build α) : Prop :=
  s.Spec Γ 0 n 0 a fun left _ b => s.Ready left Γ b

def Closes (Γ : List Value) (k n c : Nat) (a : Build α) : Prop :=
  s.Spec Γ k n c a fun left _ b => Underway s.terms left s.waiting none b

variable {s} {Γ : List Value} {t t' : Ty} {k m n n' c : Nat} {a : Build β}
  {post : Allowance → β → Builder → Prop}

theorem Stuck.keeps (h : s.Stuck b) (a : Build α) [Keeps a] : s.Stuck (a b).2 := by
  obtain ⟨e, he, hcause⟩ := h
  rw [Keeps.keeps b (by simp [he])]
  exact ⟨e, he, hcause⟩

theorem Spec.bind {a : Build α} {g : α → Build β} {mid : Allowance → α → Builder → Prop}
    [∀ x, Keeps (g x)] {j d : Nat} (ha : s.Spec Γ k m c a mid)
    (hg : ∀ left x b, mid (left.plus j n d) x b → s.Stuck (g x b).2 ∨ post left (g x b).1 (g x b).2) :
    s.Spec Γ (j + k) (n + m) (d + c) (a >>= g) post := by
  intro b left hb
  rw [← Allowance.plus_plus] at hb
  rw [bind_apply]
  rcases ha b _ hb with hstuck | hmid
  · exact Or.inl (hstuck.keeps (g _))
  · exact hg _ _ _ hmid

theorem Spec.mono {post' : Allowance → β → Builder → Prop} (ha : s.Spec Γ k n c a post)
    (h : ∀ left x b, post left x b → post' left x b) : s.Spec Γ k n c a post' :=
  fun b left hb => (ha b left hb).imp_right (h _ _ _)

/-- A step may cost more than it has to. -/
theorem Spec.le {k' c' : Nat} (ha : s.Spec Γ k n c a post) (hk : k ≤ k') (hn : n ≤ n')
    (hc : c ≤ c') : s.Spec Γ k' n' c' a post :=
  fun b left hb => ha b left
    (hb.of_le (Nat.add_le_add_left hk _) (Nat.add_le_add_left hn _) (Nat.add_le_add_left hc _))

theorem Runs.le (ha : s.Runs Γ n a) (hn : n ≤ n') : s.Runs Γ n' a :=
  Spec.le ha le_rfl hn le_rfl

theorem Spec.ite {p : Prop} [Decidable p] {a' : Build β} (h : p → s.Spec Γ k n c a post)
    (h' : ¬ p → s.Spec Γ k n c a' post) :
    s.Spec Γ k n c (if p then a else a') post := by
  split_ifs with hp
  · exact h hp
  · exact h' hp

section Bind

variable {a : Build Value} {g : Value → Build β} [∀ v, Keeps (g v)] (ha : s.Yields Γ m a t)
include ha

theorem Yields.bind (hg : ∀ v, v.Known (v :: Γ) t → s.Spec (v :: Γ) k n c (g v) post) :
    s.Spec Γ k (n + m) c (a >>= g) post :=
  Spec.bind ha fun left v b hv => hg v (.head hv.1) b left hv.2

theorem Yields.runs (hg : ∀ v, v.Known (v :: Γ) t → s.Runs (v :: Γ) n (g v)) :
    s.Runs Γ (n + m) (a >>= g) :=
  ha.bind fun v hv => (hg v hv).mono fun _ _ _ hr => hr.weaken fun _ => mem_cons_of_mem v

theorem Yields.closes (hg : ∀ v, v.Known (v :: Γ) t → s.Closes (v :: Γ) k n c (g v)) :
    s.Closes Γ k (n + m) c (a >>= g) :=
  ha.bind hg

end Bind

theorem Yields.yields {a : Build Value} {g : Value → Build Value} [∀ v, Keeps (g v)]
    (ha : s.Yields Γ m a t) (hg : ∀ v, v.Known (v :: Γ) t → s.Yields (v :: Γ) n (g v) t') :
    s.Yields Γ (n + m) (a >>= g) t' :=
  ha.bind fun v hv => (hg v hv).mono fun _ r _ hr => ⟨hr.1, hr.2.weaken fun u hu => by
    rcases mem_cons.mp hu with rfl | hu
    · exact mem_cons_self
    · exact mem_cons_of_mem r (mem_cons_of_mem v hu)⟩

theorem Runs.bind {a : Build α} {g : α → Build β} [∀ x, Keeps (g x)] (ha : s.Runs Γ m a)
    (hg : ∀ x, s.Spec Γ k n c (g x) post) :
    s.Spec Γ k (n + m) c (a >>= g) post :=
  Spec.bind ha fun left x b hb => hg x b left hb

theorem runs_pure (x : α) : s.Runs Γ n (pure x : Build α) :=
  fun _ _ hb => Or.inr (hb.of_le (Nat.le_add_right _ _) (Nat.le_add_right _ _) (Nat.le_add_right _ _))

theorem yields_pure (hv : v.Known Γ t) : s.Yields Γ n (pure v) t := by
  intro b left hb
  obtain ⟨blk, hblk, hopen, hscope⟩ := hb.scope
  have hleaves : s.terms.Leaves left b.space.used :=
    hb.leaves.of_le (Nat.le_add_right _ _) (Nat.le_add_right _ _) (Nat.le_add_right _ _)
  refine Or.inr ⟨hv.1, { hb with leaves := hleaves, scope := ⟨blk, hblk, hopen, fun u hu => ?_⟩ }⟩
  rcases mem_cons.mp hu with rfl | hu
  · exact hb.inScope hblk hv
  · exact hscope u hu

section Emit

variable {op : Op} (hops : ∀ v ∈ op.operands, ∃ u, v.Known Γ u)
include hops

theorem yields_emit (hshape : checkShape ⟨op, t, 0⟩ = .ok ())
    (hres : hasResult ⟨op, t, 0⟩ = true) (hterm : op.isTerminator = false)
    (hadmits : s.terms.Admits ⟨op, t, 0⟩) (ht : t.IsScalar) : s.Yields Γ 1 (emit op t) t := by
  intro b left hb
  have hbr : ∀ c t₀ t₁, op ≠ .br c t₀ t₁ := by
    rintro c t₀ t₁ rfl
    cases hterm
  rcases hb.emit op t with hstuck | ⟨hroom, heq⟩
  · exact Or.inl hstuck
  · rw [heq]
    have hpushed := (hb.push hops hshape (fun _ => ht) hbr hadmits hroom).2 hterm
    exact Or.inr ⟨numbered_ty b op t, hpushed.2 hres⟩

variable (hshape : checkShape ⟨op, Ty.void, 0⟩ = .ok ())
  (hres : hasResult ⟨op, Ty.void, 0⟩ = false) (hadmits : s.terms.Admits ⟨op, Ty.void, 0⟩)
include hshape hres hadmits

theorem spec_emit_ (hbr : ∀ c t₀ t₁, op ≠ .br c t₀ t₁) :
    s.Spec Γ 0 1 0 (emit_ op) fun left _ b =>
      Underway s.terms left s.waiting (if op.isTerminator then none else some s.block) b ∧
        (op.isTerminator = false → s.Ready left Γ b) := by
  intro b left hb
  have hvoid : hasResult ⟨op, void, 0⟩ = true → void.IsScalar := by simp [hres]
  have hsnd : (emit_ op b).2 = (emit op void b).2 := rfl
  rw [hsnd]
  rcases hb.emit op void with hstuck | ⟨hroom, heq⟩
  · exact Or.inl hstuck
  · have hpush := hb.push hops hshape hvoid hbr hadmits hroom
    rw [heq]
    exact Or.inr ⟨hpush.1, fun hterm => (hpush.2 hterm).1⟩

theorem runs_emit_ (hterm : op.isTerminator = false) : s.Runs Γ 1 (emit_ op) := by
  refine (spec_emit_ hops hshape hres hadmits ?_).mono fun _ _ _ h => h.2 hterm
  rintro c t₀ t₁ rfl
  cases hterm

end Emit

theorem Spec.of_known (hv : v.Known Γ t) (h : t.IsScalar → s.Spec Γ k n c a post) :
    s.Spec Γ k n c a post :=
  fun b left hb => h (hb.isScalar hv) b left hb

section Operations

variable (hx : x.Known Γ t)
include hx

theorem known_pair (hy : y.Known Γ t') : ∀ v ∈ [x, y], ∃ u, v.Known Γ u := by
  simp only [mem_cons, not_mem_nil, or_false]
  rintro v (rfl | rfl)
  · exact ⟨t, hx⟩
  · exact ⟨t', hy⟩

theorem known_singleton : ∀ v ∈ [x], ∃ u, v.Known Γ u := by
  simp only [mem_singleton]
  rintro v rfl
  exact ⟨t, hx⟩

theorem yields_binop (ht : t = i32 ∨ t = i64) (op : BinOp) (hy : y.Known Γ t) :
    s.Yields Γ 1 (binop op x y) t := by
  unfold binop
  rw [hx.1]
  exact .of_known hx fun hscalar =>
    yields_emit (known_pair hx hy) (by simp [checkShape, hx.1, hy.1]) rfl rfl ht hscalar

theorem yields_icmp (op : CmpOp) (hy : y.Known Γ t) : s.Yields Γ 1 (icmp op x y) i1 :=
  yields_emit (known_pair hx hy) (by simp [checkShape, hx.1, hy.1]) rfl rfl trivial (by decide)

theorem yields_not : s.Yields Γ 1 (not x) t := by
  unfold not
  rw [hx.1]
  exact .of_known hx fun ht =>
    yields_emit (known_singleton hx) (by simp [checkShape, hx.1]) rfl rfl trivial ht

theorem yields_trunc (ht : t'.IsScalar) (hbits : t'.bits ≤ t.bits) :
    s.Yields Γ 1 (trunc t' x) t' := by
  unfold trunc cvt
  refine Spec.ite (fun heq => yields_pure (heq ▸ hx.1 ▸ hx)) fun hne => ?_
  have hlt : t'.bits < t.bits := by
    rcases Nat.lt_or_eq_of_le hbits with hlt | heq
    · exact hlt
    · exact absurd (hx.1.trans (congrArg Ty.mk heq.symm)) hne
  exact yields_emit (known_singleton hx) (by simp [checkShape, hx.1, hlt]) rfl rfl trivial ht

theorem yields_extend {op : CvtOp} (hop : op ≠ .trunc) (ht : t'.IsScalar)
    (hbits : t.bits ≤ t'.bits) : s.Yields Γ 1 (cvt op t' x) t' := by
  unfold cvt
  refine Spec.ite (fun heq => yields_pure (heq ▸ hx.1 ▸ hx)) fun hne => ?_
  have hlt : t.bits < t'.bits := by
    rcases Nat.lt_or_eq_of_le hbits with hlt | heq
    · exact hlt
    · exact absurd (hx.1.trans (congrArg Ty.mk heq)) hne
  exact yields_emit (known_singleton hx) (by simp [checkShape, hx.1, hop, hlt]) rfl rfl trivial ht

theorem runs_store {a : Value} (ha : a.Known Γ i64) : s.Runs Γ 1 (store a x) :=
  runs_emit_ (known_pair ha hx) (by simp [checkShape, ha.1]) rfl trivial rfl

end Operations

theorem yields_load {a : Value} (ha : a.Known Γ i64) (ht : t.IsScalar) :
    s.Yields Γ 1 (load t a) t :=
  yields_emit (known_singleton ha) (by simp [checkShape, ha.1]) rfl rfl trivial ht

theorem closes_exit : s.Closes Γ 0 1 0 exit :=
  (@spec_emit_ s Γ .exit (by simp [Op.operands]) rfl rfl trivial (by simp)).mono fun _ _ _ h => h.1

/-- A register of another width than that of the site. -/
theorem Ready.stuck_type (hb : s.Ready left Γ b) (hb' : b' = { b with error := some e }) {reg : Nat}
    (hreg : reg < s.registers) (hbound : (b.space.binding reg).isBound = true)
    (hty : (b.space.binding reg).ty ≠ s.width) : s.Stuck b' := by
  subst hb'
  refine ⟨e, rfl, hb.leaves.of_le (Nat.zero_le _) (Nat.zero_le _) (Nat.zero_le _), Or.inr fun huniform => ?_⟩
  simp only [Workspace.binding, hb.bindings] at hbound hty
  exact hty (huniform reg hreg hbound)

theorem yields_read {reg : Nat} (hreg : reg < s.registers) (hw : s.width.IsScalar) :
    s.Yields Γ 1 (read reg s.width) s.width := by
  intro b left hb
  simp only [read]
  split_ifs with hbound hty
  · exact yields_pure (.lit hw 0) b left hb
  · exact Or.inl (hb.stuck_type (fail_apply hb.error) hreg (by simpa using hbound) hty)
  · refine yields_emit (by simp [Op.operands]) rfl rfl rfl ?_ hw b left hb
    simpa [Terms.Admits, Workspace.binding, hb.bindings] using hbound

theorem runs_write {reg : Nat} (hreg : reg < s.registers) (hx : x.Known Γ s.width) :
    s.Runs Γ 1 (write reg x) := by
  intro b left hb
  simp only [write]
  split_ifs with hbound hty
  · exact runs_pure () b left hb
  · exact Or.inl (hb.stuck_type (fail_apply hb.error) hreg (by simpa using hbound)
      fun hw => hty (hx.1.trans hw.symm))
  · have hadmits : s.terms.Admits ⟨.write reg x, void, 0⟩ := by
      simpa [Terms.Admits, Workspace.binding, hb.bindings] using hbound
    have hemit : s.Runs Γ 1 (emit_ (.write reg x)) := runs_emit_ (known_singleton hx) rfl rfl hadmits rfl
    exact hemit b left hb

theorem runs_call {f : Func} (hf : s.terms.callee = some f) (hx : x.Known Γ t) (hy : y.Known Γ t') :
    s.Spec Γ 0 1 3 (call (some f) void [x, y]) fun left _ b => s.Ready left Γ b := by
  intro b left hb
  rcases call_cases (some f) void [x, y] hb.error with ⟨hfull, heq⟩ | ⟨-, heq⟩
  · rw [heq]
    refine Or.inl (hb.stuck rfl trivial rfl fun hfits => ?_)
    have hroom := hfits.params
    obtain ⟨calls, hparams, hcalls⟩ := hb.leaves.params
    simp only [Allowance.plus] at hcalls
    rw [hb.capacity, hparams] at hfull
    simp only [length_cons, length_nil] at hfull
    omega
  · rw [heq]
    have hleaves : s.terms.Leaves ((left.plus 0 1 0).plus 0 0 3) b.space.used := hb.leaves
    have hready : s.Ready (left.plus 0 1 0) Γ (b.withParams [x, y].length) :=
      ⟨⟨hb.error, hb.bindings, hb.capacity, hleaves.call, hb.root, hb.tree, hb.admits, hb.reached, hb.varCount,
        hb.nodup, hb.empty, hb.scopes, hb.closed⟩, hb.current, hb.notWaiting, hb.scope⟩
    have hemit : s.Runs Γ 1 (emit_ (.call (some f) [x, y])) :=
      runs_emit_ (known_pair hx hy) rfl rfl ⟨rfl, hf.symm⟩ rfl
    exact hemit _ _ hready

/-- A branch closes the block and opens one for each side; what may be used in front of it may be used
in both. -/
theorem fork {c : Value} (hc : c.Known Γ i1) {g : Int → Int → Build β}
    [∀ n m, Keeps (g n m)] {j : Nat}
    (hg : ∀ left (i : Nat) b, Underway s.terms (left.plus k n j) (⟨i + 1, Γ⟩ :: ⟨i, Γ⟩ :: s.waiting) none b →
      s.Stuck (g i (i + 1 : Nat) b).2 ∨ post left (g i (i + 1 : Nat) b).1 (g i (i + 1 : Nat) b).2) :
    s.Spec Γ (k + 2) (n + 1) j (do
      let ifFalse ← newBlock
      let ifTrue ← newBlock
      br c ifFalse ifTrue
      g ifFalse ifTrue) post := by
  intro b left hb
  rw [← Nat.add_zero j, ← Allowance.plus_plus] at hb
  obtain ⟨blk, hblk, -, -⟩ := hb.scope
  have hlt : s.block < b.graph.blocks.size := (Array.getElem?_eq_some_iff.mp hblk).1
  have hblocks := hb.leaves.blocks
  have hinstrs := hb.leaves.instrs
  simp only [Allowance.plus] at hblocks hinstrs
  rw [bind_apply]
  -- Either block may find its arena full, and then nothing more is built.
  rcases newBlock_cases hb.error with ⟨hfull, heq⟩ | ⟨-, heq⟩
  · rw [heq]
    have hstuck : s.Stuck { b with error := some (.blocksFull b.space.capacity.blocks) } := by
      refine hb.stuck rfl trivial rfl fun hfits => ?_
      have := hfits.blocks
      rw [hb.capacity] at hfull
      omega
    exact Or.inl (hstuck.keeps (newBlock >>= fun m => br c (-1) m >>= fun _ => g (-1) m))
  · rw [heq, bind_apply]
    have hleaves₁ : s.terms.Leaves {} b.withBlock.space.used :=
      Terms.Leaves.block (show s.terms.Leaves ⟨1, 0, 0⟩ _ from
        hb.leaves.of_le (by simp [Allowance.plus]) (Nat.zero_le _) (Nat.zero_le _))
    have hleaves₂ : s.terms.Leaves {} b.withBlock.withBlock.space.used :=
      Terms.Leaves.block (Terms.Leaves.block (show s.terms.Leaves ⟨2, 0, 0⟩ _ from
        hb.leaves.of_le (by simp [Allowance.plus]) (Nat.zero_le _) (Nat.zero_le _)))
    rcases newBlock_cases (b := b.withBlock) hb.error with ⟨hfull, heq'⟩ | ⟨-, heq'⟩
    · rw [heq']
      have hstuck : s.Stuck { b.withBlock with
          error := some (.blocksFull b.withBlock.space.capacity.blocks) } := by
        refine ⟨_, rfl, hleaves₁, Or.inl ⟨trivial, fun hfits => ?_⟩⟩
        have := hfits.blocks
        simp only [withBlock, hb.capacity] at hfull
        omega
      exact Or.inl (hstuck.keeps (br c _ (-1) >>= fun _ => g _ (-1)))
    · rw [heq']
      rw [withBlock_size, bind_apply]
      set i := b.graph.blocks.size
      set b₂ := b.withBlock.withBlock
      have hblk₂ : b₂.graph.blocks[s.block]? = some blk := by
        rw [withBlock_getElem? (by simp; omega), withBlock_getElem? hlt, hblk]
      have hterm : b₂.isTerminated = false := by
        have := hb.isTerminated
        simp only [isTerminated, hb.current, hblk] at this
        simpa only [isTerminated, show b₂.current = some s.block from hb.current, hblk₂]
          using this
      have hsnd : (br c i (i + 1 : Nat) b₂).2 = (emit (.br c i (i + 1 : Nat)) void b₂).2 := rfl
      rw [hsnd]
      rcases emit_cases (.br c i (i + 1 : Nat)) void (b := b₂) hb.error with
        ⟨hterm', -⟩ | ⟨hfull, hpush⟩ | ⟨k', hk', -, hroom, hpush⟩
      · rw [hterm] at hterm'
        cases hterm'
      · rw [hpush]
        have hstuck : s.Stuck { b₂ with error := some (.instrsFull b₂.space.capacity.instrs) } := by
          refine ⟨_, rfl, hleaves₂, Or.inl ⟨trivial, fun hfits => ?_⟩⟩
          have := hfits.instrs
          simp only [b₂, withBlock, hb.capacity] at hfull
          omega
        exact Or.inl (hstuck.keeps (g _ _))
      · cases hb.current.symm.trans hk'
        rw [hpush]
        exact hg _ i _ (hb.branch hc hroom)

end Site

variable {waiting : List Waiting} {filling : Option Nat}

theorem Underway.of_le (h : Underway w left waiting filling b)
    (hblocks : left'.blocks ≤ left.blocks) (hinstrs : left'.instrs ≤ left.instrs)
    (hthirds : left'.thirds ≤ left.thirds) : Underway w left' waiting filling b :=
  { h with leaves := h.leaves.of_le hblocks hinstrs hthirds }

theorem Underway.slotFree (h : Underway w left waiting filling b) : b.graph.IsSlotFree := by
  intro k blk hblk i hi t hop
  have hadmits := h.admits hblk i hi
  rw [Terms.Admits, hop] at hadmits
  exact hadmits

theorem Underway.setBlock {p : Waiting} {rest : List Waiting}
    (h : Underway w left (p :: rest) none b) (n : Nat) (t : Ty) :
    Site.Ready ⟨w, n, t, rest, p.block⟩ left p.scope (setBlock p.block b).2 := by
  have hp : b.graph.blocks[p.block]? = some ⟨p.block, []⟩ := h.empty p mem_cons_self
  rw [setBlock_apply h.error (Array.getElem?_eq_some_iff.mp hp).1]
  have hnodup := h.nodup
  rw [map_cons, nodup_cons] at hnodup
  refine ⟨⟨h.error, h.bindings, h.capacity, h.leaves, h.root, h.tree, h.admits, h.reached, h.varCount,
    hnodup.2, ?_, ?_, ?_⟩, rfl, hnodup.1, ⟨_, hp, by simp, h.scopes p mem_cons_self⟩⟩
  · exact fun q hq => h.empty q (mem_cons_of_mem p hq)
  · exact fun q hq => h.scopes q (mem_cons_of_mem p hq)
  · intro j blk hj
    rcases h.closed hj with hwait | hfill | hclosed
    · rcases mem_cons.mp hwait with rfl | hwait
      · exact Or.inr (Or.inl rfl)
      · exact Or.inl hwait
    · cases hfill
    · exact Or.inr (Or.inr hclosed)

/-- The first step of every graph: its first block waits. -/
theorem underway_start (w : Workspace) (callee : Option Func) (left : Allowance) :
    (w.capacity.blocks ≤ w.used.blocks ∧ (start w).space = w ∧
      (start w).error = some (.blocksFull w.capacity.blocks)) ∨
    (w.used.blocks < w.capacity.blocks ∧ (start w).space.used.instrs = w.used.instrs ∧
      Underway ⟨w, callee, left.plus 1 0 0⟩ left [⟨0, []⟩] none (start w)) := by
  rcases newBlock_cases (b := { space := w }) rfl with ⟨hfull, heq⟩ | ⟨hroom, heq⟩
  · refine Or.inl ⟨hfull, ?_⟩
    simp [start, heq]
  · have hstart : start w = { withBlock { space := w } with current := some 0 } := by
      simp only [start, heq]
      rfl
    refine Or.inr ⟨hroom, by rw [hstart]; rfl, ?_⟩
    have hblocks : (start w).graph.blocks = #[⟨0, []⟩] := by
      rw [hstart]
      rfl
    have hget : ∀ {k : Nat} {b}, (start w).graph.blocks[k]? = some b → k = 0 ∧ b = ⟨0, []⟩ := by
      intro k b hb
      rw [hblocks] at hb
      obtain ⟨hlt, hb⟩ := Array.getElem?_eq_some_iff.mp hb
      simp only [size_toArray, length_singleton, Nat.lt_one_iff] at hlt
      subst hlt
      exact ⟨rfl, hb.symm⟩
    have hno : ∀ {k : Nat} {b pre i post}, (start w).graph.blocks[k]? = some b →
        b.instrs ≠ pre ++ i :: post := by
      intro k b pre i post hb heq
      rw [(hget hb).2] at heq
      simp at heq
    have hedge : ∀ {p : Nat} {t}, ¬ (start w).graph.Edge p t := by
      rintro p t ⟨b, i, -, -, -, hb, hi, -⟩
      rw [(hget hb).2] at hi
      cases hi
    have hleaves : Terms.Leaves ⟨w, callee, left.plus 1 0 0⟩ left (start w).space.used := by
      rw [hstart]
      exact Terms.Leaves.block ⟨le_rfl, le_rfl, 0, rfl, by simp⟩
    refine ⟨by rw [hstart]; rfl, by rw [hstart]; rfl, by rw [hstart]; rfl, hleaves, by simp [hblocks],
      ⟨?_, ?_, ?_, ?_, ?_, ?_⟩, ?_, ?_, ?_, by simp, ?_, by simp, ?_⟩
    · intro k b hb
      obtain ⟨rfl, rfl⟩ := hget hb
      rfl
    · exact fun hb hi => absurd hi (hno hb)
    · exact fun hb _ hi _ => absurd hi (hno hb)
    · exact fun he => absurd he hedge
    · exact fun he => absurd he hedge
    · intro k b i c t₀ t₁ hb hi
      rw [(hget hb).2] at hi
      cases hi
    · intro k b hb i hi
      rw [(hget hb).2] at hi
      cases hi
    · intro k hpos hlt
      rw [hblocks] at hlt
      simp only [size_toArray, length_singleton] at hlt
      omega
    · rw [hstart]
      simp [withBlock, Graph.empty]
    · simp [hblocks]
    · intro j blk hj
      exact Or.inl (by simp [(hget hj).1])

/-- When no block waits the graph passes the type checker. -/
theorem Underway.typecheck (h : Underway w left [] none b)
    (hroom : Host.canAllocate w.space.capacity.instrs 8 = true) :
    b.graph.typecheck = .accepted := by
  refine h.tree.typecheck h.reached (fun hb => ?_) h.root ?_
  · rcases h.closed hb with hwait | hfill | hclosed
    · cases hwait
    · cases hfill
    · exact hclosed
  · have := h.varCount
    simp only [Host.canAllocate, Graph.hasRoomFor, Bool.and_eq_true, decide_eq_true_eq] at hroom ⊢
    omega

end Builder

end Dynarec
