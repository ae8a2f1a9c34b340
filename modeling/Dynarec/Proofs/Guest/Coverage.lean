import Dynarec.Proofs.Graph.Trimming
import Dynarec.Proofs.Native.Selection

/-!
# Lifted regions have native code

Without an exception handler a region is built from operations that all have native code: registers are
accessed only where they are bound, and what is divided has the width of a register or of its low word.
Simplifying a graph takes no native code away.
-/
namespace Dynarec

variable {w space : Workspace} {i i' : Instr}

namespace Terms

/-- Instructions that are admitted have native code, if there is no function to call. -/
theorem Admits.not_lacks {w : Terms} (hi : w.Admits i) (hcallee : w.callee = none)
    (hspace : space.bindings = w.space.bindings) (f : Fault) : ¬ Native.Lacks space i f := by
  have hbinding (reg : Int) : space.binding reg = w.space.binding reg := by simp only [Workspace.binding, hspace]
  intro hlacks
  unfold Admits at hi
  cases hlacks with
  | division hop _ h32 h64 =>
    rw [hop] at hi
    exact hi.elim h32 h64
  | target hop | entry hop =>
    rw [hop, hcallee] at hi
    obtain ⟨hsome, hnone⟩ := hi
    rw [hnone] at hsome
    cases hsome
  | read hop hbound | write hop hbound =>
    rw [hop] at hi
    rw [hbinding, hi] at hbound
    cases hbound

end Terms

namespace Guest

open Builder

namespace Lifter

variable (l : Lifter) {addr : UInt64} {code : List UInt8} {g : Graph}
  (hlift : l.lift space addr code = (.ok g, w))
include hlift

/-- A region that was lifted without a handler has native code over the registers that were bound. -/
theorem lift_covered (hl : l.exception = none) : ∀ i ∈ g.instrs, ∀ f, ¬ Native.Lacks w i f := by
  obtain ⟨-, hunder, rfl, -, hw⟩ := l.underway_of_lift addr code (congrArg Prod.fst hlift)
  obtain rfl : w = _ := (congrArg Prod.snd hlift).symm.trans hw
  intro i hi
  obtain ⟨k, blk, hblk, hmem⟩ := Graph.exists_block hi
  exact (hunder.admits hblk i hmem).not_lacks hl hunder.bindings

theorem lift_hasRoomFor (hspace : space.Made) : g.hasRoomFor Native.Homes.entrySize = true := by
  obtain ⟨-, hunder, rfl, -⟩ := l.underway_of_lift addr code (congrArg Prod.fst hlift)
  have hroom := hspace.canAllocate
  have hcount := hunder.varCount
  have hentry : (Native.Homes.entrySize : Int) = 48 := rfl
  simp only [terms, Graph.hasRoomFor, Host.canAllocate, Bool.and_eq_true, decide_eq_true_eq] at hroom hcount ⊢
  rw [hentry]
  omega

theorem lift_bindable (hspace : space.Made) : w.Bindable := by
  obtain ⟨-, hunder, -, -, hw⟩ := l.underway_of_lift addr code (congrArg Prod.fst hlift)
  obtain rfl : w = _ := (congrArg Prod.snd hlift).symm.trans hw
  have hbindable := hspace.bindable
  simp only [Workspace.Bindable, Workspace.binding, hunder.bindings] at hbindable ⊢
  exact hbindable

end Lifter

end Guest

namespace Op

variable {op : Op} {vs : List Value}

theorem binop_of_withOperands {o : BinOp} {x y : Value} (h : op.withOperands vs = binop o x y) :
    ∃ x' y', op = binop o x' y' := by
  unfold withOperands at h
  split at h <;> simp_all

theorem call_of_withOperands {target : Option Func} {ps : List Value}
    (h : op.withOperands vs = call target ps) : ∃ ps', op = call target ps' := by
  unfold withOperands at h
  split at h <;> simp_all

theorem read_of_withOperands {reg : Int} (h : op.withOperands vs = read reg) : op = read reg := by
  unfold withOperands at h
  split at h <;> simp_all

theorem write_of_withOperands {reg : Int} {x : Value} (h : op.withOperands vs = write reg x) :
    ∃ x', op = write reg x' := by
  unfold withOperands at h
  split at h <;> simp_all

end Op

theorem Instr.Rewrites.lacks (h : i.Rewrites i') {f : Fault} (hlacks : Native.Lacks w i' f) :
    Native.Lacks w i f := by
  obtain ⟨vs, n, -, rfl⟩ := h
  cases hlacks with
  | division hop hdiv h32 h64 =>
    obtain ⟨x, y, hop⟩ := Op.binop_of_withOperands hop
    exact .division hop hdiv h32 h64
  | target hop =>
    obtain ⟨ps, hop⟩ := Op.call_of_withOperands hop
    exact .target hop
  | entry hop hentry =>
    obtain ⟨ps, hop⟩ := Op.call_of_withOperands hop
    exact .entry hop hentry
  | read hop hbound => exact .read (Op.read_of_withOperands hop) hbound
  | write hop hbound =>
    obtain ⟨x, hop⟩ := Op.write_of_withOperands hop
    exact .write hop hbound

theorem Instr.Trimmed.exists_rewrites {is is' : List Instr} (h : Trimmed is is') (hi' : i' ∈ is') :
    ∃ i ∈ is, i.Rewrites i' := by
  induction h with
  | nil => cases hi'
  | @keep i j is is' hrw _ ih =>
    rcases List.mem_cons.mp hi' with rfl | hi'
    · exact ⟨i, List.mem_cons_self, hrw⟩
    · obtain ⟨i, hi, hrw'⟩ := ih hi'
      exact ⟨i, List.mem_cons_of_mem _ hi, hrw'⟩
  | drop _ _ ih =>
    obtain ⟨i, hi, hrw⟩ := ih hi'
    exact ⟨i, List.mem_cons_of_mem _ hi, hrw⟩

/-- What has native code has it also when it is simplified. -/
theorem Graph.Typed.simplify_covered {g : Graph} (T : g.Typed)
    (hg : ∀ i ∈ g.instrs, ∀ f, ¬ Native.Lacks w i f) :
    ∀ i ∈ g.simplify.instrs, ∀ f, ¬ Native.Lacks w i f := by
  obtain ⟨g', ⟨S⟩, hsweep⟩ := T.swept
  by_cases hroom : g.hasRoomFor 24 = true
  · rw [show g.simplify = g' by rw [simplify, hsweep hroom]]
    intro i' hi' f hlacks
    obtain ⟨k, b', hb', hmem⟩ := exists_block hi'
    have hk : k < g.blocks.size := S.size ▸ (Array.getElem?_eq_some_iff.mp hb').1
    have hb := Array.getElem?_eq_getElem hk
    obtain ⟨i, hi, hrw⟩ := (S.trimmed T hb hb').exists_rewrites hmem
    exact hg i (mem_instrs hb hi) f (hrw.lacks hlacks)
  · rwa [show g.simplify = g by simp [simplify, sweep, hroom]]

end Dynarec
