import Dynarec.Proofs.Guest.TypeSoundness
import Dynarec.Proofs.Native.BlockOrder
import Dynarec.Proofs.Native.LiveRanges
import Dynarec.Proofs.Native.Regular

/-!
# Which instructions have native code

The only operations of a checked graph without native code are divisions at other widths than those of the
machine, calls that have no entry, and accesses to registers that are not bound: `Lacks` says so without
the code that is selected. Everything else is selected whatever the homes of its operands are: sizes that
no machine instruction has do not come up, every operand has a home, and branches go forward.
-/
namespace Dynarec

open List

/-- Registers are bound at the widths that a machine instruction can move. -/
def Workspace.Bindable (w : Workspace) : Prop :=
  ∀ reg, Workspace.bindable (w.binding reg).ty = true

theorem Workspace.Made.bindable {w : Workspace} (h : w.Made) : w.Bindable := by
  induction h with
  | create h =>
    unfold Workspace.create at h
    split_ifs at h
    cases h
    intro reg
    simp [Workspace.binding, entryAt?, Workspace.bindable]
  | @bind w w' id t name cell _ h ih =>
    intro reg
    by_cases hreg : reg = id
    · rw [hreg, Workspace.binding_bind_self h]
      unfold Workspace.bind at h
      split_ifs at h with hrange hty
      simpa using hty
    · rw [Workspace.binding_bind_of_ne h hreg]
      exact ih reg
  | use _ used ih => exact ih

theorem Workspace.Bindable.isScalar {w : Workspace} (h : w.Bindable) {reg : Int}
    (hbound : (w.binding reg).isBound = true) : (w.binding reg).ty.IsScalar := by
  have hty := h reg
  simp only [Binding.isBound, Bool.and_eq_true, bne_iff_ne] at hbound
  simp only [Workspace.bindable, Bool.or_eq_true, decide_eq_true_eq] at hty
  rcases hty with (((hty | hty) | hty) | hty) | hty
  · exact absurd hty hbound.1
  all_goals
    rw [hty]
    decide

namespace Native

open Machine

variable {w : Workspace} {g : Graph} {h : Homes} {i : Dynarec.Instr} {p : Place}

/-- The instruction has no native code, for this reason. -/
inductive Lacks (w : Workspace) (i : Dynarec.Instr) : Fault → Prop
  | division {op x y} (hop : i.op = .binop op x y) (hdiv : op.isDivision = true)
      (h32 : i.ty ≠ Ty.i32) (h64 : i.ty ≠ Ty.i64) : Lacks w i .unsupportedDivision
  | target {params} (hop : i.op = .call none params) : Lacks w i .unsupportedCall
  | entry {fn params} (hop : i.op = .call (some fn) params) (hentry : fn.entry = 0) : Lacks w i
      .unsupportedCall
  | read {reg} (hop : i.op = .read reg) (hbound : (w.binding reg).isBound = false) : Lacks w i
      .unboundRegister
  | write {reg x} (hop : i.op = .write reg x) (hbound : (w.binding reg).isBound = false) : Lacks w i
      .unboundRegister

/-- A known operation is refused just where it lacks something, and for that reason. -/
theorem exists_unsupported_iff (hknown : ∀ tag, i.op ≠ .unknown tag)
    {f : Fault} : (∃ cause, Select.unsupported w i = some cause ∧ cause.fault = f) ↔ Lacks w i f := by
  constructor
  · rintro ⟨cause, hcause, rfl⟩
    obtain ⟨op, t, n⟩ := i
    cases op with
    | binop op x y =>
      simp only [Select.unsupported] at hcause
      split_ifs at hcause with hdiv
      cases hcause
      exact .division rfl hdiv.1 hdiv.2.1 hdiv.2.2
    | read reg =>
      simp only [Select.unsupported] at hcause
      split_ifs at hcause with hbound
      cases hcause
      exact .read rfl (by simpa using hbound)
    | write reg x =>
      simp only [Select.unsupported] at hcause
      split_ifs at hcause with hbound
      cases hcause
      exact .write rfl (by simpa using hbound)
    | call target params =>
      cases target with
      | none =>
        cases hcause
        exact .target rfl
      | some fn =>
        simp only [Select.unsupported] at hcause
        split_ifs at hcause with hentry
        cases hcause
        exact .entry rfl hentry
    | unknown tag => exact absurd rfl (hknown tag)
    | _ => cases hcause
  · intro hlacks
    cases hlacks with
    | division hop hdiv h32 h64 =>
      exact ⟨.division i.ty, by simp [Select.unsupported, hop, hdiv, h32, h64], rfl⟩
    | target hop => exact ⟨.noEntry, by simp only [Select.unsupported, hop], rfl⟩
    | entry hop hentry => exact ⟨.noEntry, by simp [Select.unsupported, hop, hentry], rfl⟩
    | @read reg hop hbound =>
      exact ⟨.unboundRead (w.registerName reg), by simp [Select.unsupported, hop, hbound], rfl⟩
    | @write reg x hop hbound =>
      exact ⟨.unboundWrite (w.registerName reg), by simp [Select.unsupported, hop, hbound], rfl⟩

theorem unsupported_eq_none_iff (hknown : ∀ tag, i.op ≠ .unknown tag) :
    Select.unsupported w i = none ↔ ∀ f, ¬ Lacks w i f := by
  rw [Option.eq_none_iff_forall_ne_some]
  constructor
  · intro hno f hlacks
    obtain ⟨cause, hcause, -⟩ := (exists_unsupported_iff hknown).mpr hlacks
    exact hno cause hcause
  · intro hno cause hcause
    exact hno cause.fault ((exists_unsupported_iff hknown).mp ⟨cause, hcause, rfl⟩)

theorem Homes.Sound.sized (T : g.Typed) (hs : h.Sound g) : h.Sized := by
  intro id disp size hget
  have hhome : h.get id ≠ .none := by simp [hget]
  obtain ⟨p, t, i, hi, hres, rfl, rfl⟩ := hs.given hhome
  have hsuits := hs.settled hi hres
  rw [hget, Home.Suits] at hsuits
  split at hsuits
  · obtain ⟨disp', hslot⟩ := hsuits
    cases hslot
  · rcases hsuits with ⟨r, hreg⟩ | ⟨disp', hspill⟩
    · cases hreg
    · cases hspill
      exact ⟨i.ty, (T.defines_fresh ⟨i, hi, hres, rfl, rfl⟩).1, rfl⟩

/-- What the checker has made sure of in front of an instruction, as far as its code goes. -/
theorem exists_code (hsized : h.Sized) (hw : w.Bindable) (hsupported : Select.unsupported w i = none)
    (hres : i.hasResult = true → i.ty.IsScalar) (hops : ∀ v ∈ i.op.operands, v.ty.IsScalar) (k : Nat) :
    ∃ code, Select.code h w k i = .ok code := by
  have hload (r : Reg) (hr : r ∈ scratch) (v : Value) :=
    gives_load (S := True) (fun _ => hsized) hr v
  by_cases hcall : ∃ target params, i.op = .call target params
  · obtain ⟨target, params, hop⟩ := hcall
    simp only [Select.code, hop]
    exact (gives_call fun _ => hsized).1 trivial
  cases hjumps : Select.jumps i.op with
  | false =>
    refine (gives_code (S := True) (fun _ => hsized) hjumps (fun t ps hop => hcall ⟨t, ps, hop⟩)
      (fun _ => hres) (fun _ => hops) fun _ reg hop => hw.isScalar ?_).1 trivial
    rcases hop with hop | ⟨x, hop⟩ <;> simpa [Select.unsupported, hop] using hsupported
  | true =>
    obtain ⟨op, t, n⟩ := i
    cases op with
    | assert c =>
      exact ((hload .rax (by decide) c).bind (Q := fun _ => True) fun _ _ => .ok trivial).1 trivial
    | binop op x y =>
      simp only [Select.code, show op.isDivision = true from hjumps, if_true]
      exact ((hload .rax (by decide) x).bind (Q := fun _ => True) fun _ _ =>
        (hload .rcx (by decide) y).bind fun _ _ =>
        (gives_store (fun _ => hsized) _ _).bind fun _ _ => .ok trivial).1 trivial
    | _ => cases hjumps

theorem mem_operands_of_mem_loads {op : Op} {v : Value} (hv : v ∈ Select.loads op) :
    v ∈ op.operands := by
  cases op with
  | store a x => simpa [Select.loads, Op.operands, or_comm] using hv
  | call target params =>
    simp only [Select.loads, mem_append, mem_reverse] at hv
    exact hv.elim mem_of_mem_drop mem_of_mem_take
  | _ => exact hv

section Graph

variable (T : g.Typed) (hs : h.Sound g) (hi : g.instrAt? p = some i)
include T hs hi

theorem get_ne_none {t : Ty} {id : Int} (hid : .var t id ∈ i.op.operands) : h.get id ≠ .none := by
  obtain ⟨q, -, -, j, hj, hres, rfl, -⟩ := T.exists_def hi hid
  have hsuits := hs.settled hj hres
  intro hnone
  rw [hnone, Home.Suits] at hsuits
  split at hsuits <;> simp at hsuits

theorem homeless_eq_none : Select.homeless h i.op = none := by
  rw [Select.homeless, getLast?_eq_none_iff, filterMap_eq_nil_iff]
  intro v hv
  cases v with
  | const t x => rfl
  | var t id => exact if_neg (get_ne_none T hs hi (mem_operands_of_mem_loads hv))

/-- An instruction of a checked graph that lacks nothing has code. -/
theorem exists_instrCode (hw : w.Bindable) (hsupported : Select.unsupported w i = none) (k : Nat) :
    ∃ code, Layout.instrCode w h k i = .ok code := by
  obtain ⟨defs, hdefs⟩ := T.exists_stands hi
  obtain ⟨mid, hmid, -⟩ := hdefs.next hi
  obtain ⟨huses, -, -⟩ := Typing.checkInstr_ok.mp hmid
  obtain ⟨code, hcode⟩ := exists_code (hs.sized T) hw hsupported
    (fun hres => (T.defines_fresh ⟨i, hi, hres, rfl, rfl⟩).1) (fun v hv => (huses v hv).isScalar) k
  exact ⟨code, by simp [Layout.instrCode, hsupported, hcode, homeless_eq_none T hs hi]⟩

/-- A branch of a checked graph has code. -/
theorem branchCode_ne_stopped {c : Value} {ifFalse ifTrue : Int} (hop : i.op = .br c ifFalse ifTrue)
    (f : AssembleFailure) : (Layout.branchCode g h p.label i c ifFalse ifTrue).2 ≠ .stopped f := by
  obtain ⟨b, j, hb, htail, hj⟩ := T.endsIn hi (by simp [Instr.isTerminator, hop, Op.isTerminator])
  have hforward {t : Int} (ht : t = ifFalse ∨ t = ifTrue) : (p.label : Int) < t ∧ t < g.blocks.size :=
    Graph.dominators_forward T.dominators ⟨b, j, c, ifFalse, ifTrue, hb, htail, hj.trans hop, ht⟩
  have htargets : Layout.badTarget g p.label [ifFalse, ifTrue] = none := by
    rw [Layout.badTarget, find?_eq_none]
    intro t ht
    have := hforward (t := t) (by simpa using ht)
    simp only [Bool.or_eq_true, decide_eq_true_eq]
    omega
  cases c with
  | const t x => simp [Layout.branchCode, htargets]
  | var t id =>
    obtain ⟨code, hcode⟩ :=
      (gives_load (fun _ => hs.sized T) (by decide : .rax ∈ scratch) (.var t id)).1 trivial
    have hmem : .var t id ∈ i.op.operands := by simp [hop, Op.operands]
    have hhome := get_ne_none T hs hi hmem
    simp [Layout.branchCode, htargets, hcode, hhome]

end Graph

/-- The failure that an instruction without native code causes. -/
def refusal (w : Workspace) (i : Dynarec.Instr) : Option AssembleFailure :=
  (Select.unsupported w i).map fun cause => .error (.at i cause)

theorem blockCode_cons (hterm : i.isTerminator = false) (label k : Nat) (rest : List Dynarec.Instr) :
    (Layout.blockCode w g h label k (i :: rest)).2 =
      match Layout.instrCode w h k i with
      | .error f => .stopped f
      | .ok _ => (Layout.blockCode w g h label (k + 1) rest).2 := by
  rw [Layout.blockCode]
  split
  · rename_i hop
    simp [Instr.isTerminator, hop, Op.isTerminator] at hterm
  · rename_i hop
    simp [Instr.isTerminator, hop, Op.isTerminator] at hterm
  · cases Layout.instrCode w h k i <;> rfl

/-- The code of a block of a checked graph stops just at its first instruction that is refused. -/
theorem stopOf_blockCode (T : g.Typed) (hs : h.Sound g) (hw : w.Bindable) {is : List Dynarec.Instr}
    (his : g.From p is) (hne : is ≠ []) (k : Nat) :
    stopOf (Layout.blockCode w g h p.label k is).2 = is.findSome? (refusal w) := by
  induction is generalizing p k with
  | nil => exact absurd rfl hne
  | cons i rest ih =>
    obtain ⟨hi, hrest⟩ := his.cons
    rw [findSome?_cons]
    cases hterm : i.isTerminator with
    | true =>
      -- a terminator is the last instruction, and is never refused
      obtain rfl := (his.eq_nil_iff T).mpr hterm
      rw [Instr.isTerminator, Op.isTerminator.eq_def] at hterm
      split at hterm
      · rename_i hop
        simp [Layout.blockCode, hop, refusal, Select.unsupported, stopOf]
      · rename_i c ifFalse ifTrue hop
        have hends := branchCode_ne_stopped T hs hi hop
        simp only [Layout.blockCode, hop, refusal, Select.unsupported, Option.map_none, findSome?_nil]
        cases hend : (Layout.branchCode g h p.label i c ifFalse ifTrue).2 with
        | stopped f => exact absurd hend (hends f)
        | _ => rfl
      · cases hterm
    | false =>
      rw [blockCode_cons hterm]
      cases hcause : Select.unsupported w i with
      | some cause => simp [Layout.instrCode, hcause, refusal, stopOf]
      | none =>
        obtain ⟨code, hcode⟩ := exists_instrCode T hs hi hw hcause k
        have hmore : rest ≠ [] := by simp [his.eq_nil_iff T, hterm]
        simp only [hcode, refusal, hcause, Option.map_none]
        exact ih hrest hmore (k + 1)

theorem findSome?_eq_of_blocks {f : Nat → Option AssembleFailure} {instrs : Nat → List Dynarec.Instr}
    {r : Dynarec.Instr → Option AssembleFailure} {ks : List Nat}
    (hblock : ∀ k ∈ ks, f k = (instrs k).findSome? r) :
    ks.findSome? f = (ks.flatMap instrs).findSome? r := by
  induction ks with
  | nil => rfl
  | cons k ks ih =>
    rw [forall_mem_cons] at hblock
    rw [findSome?_cons, flatMap_cons, findSome?_append, hblock.1, ih hblock.2]
    cases (instrs k).findSome? r <;> rfl

/-- Code generation stops just at the first instruction in the order of emission that is refused. -/
theorem layout_refusal (T : g.Typed) (hne : 0 < g.blocks.size) (hs : h.Sound g) (hw : w.Bindable) :
    (layout w g h).2 = g.emitted.findSome? (refusal w) := by
  have hblock : ∀ k ∈ g.placement [] [0], stopOf (wholeBlock w g h k).2 =
      ((g.blocks[k]?.map Block.instrs).getD []).findSome? (refusal w) := by
    intro k hk
    have hlt := Graph.lt_of_mem_placement hk
    have hinstrs : (g.blocks[k]?.map Block.instrs).getD [] ≠ [] := by
      rw [Array.getElem?_eq_getElem hlt]
      exact (T.block (Array.getElem?_eq_getElem hlt)).2.1
    exact stopOf_blockCode T hs hw (Graph.from_block hlt) hinstrs _
  rw [← (Prod.mk.inj (layout_placement T w h hne)).2, linked_stop]
  exact findSome?_eq_of_blocks hblock

end Native

end Dynarec
