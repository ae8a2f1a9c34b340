import Dynarec.Proofs.Graph.Builder

/-!
# Every sequence of building steps

A builder may be asked for its steps in any order and with any arguments, and may be sent from
block to block. As long as no step has failed the graph is well built: this is `WellBuilt`, kept by
one request and from there by every list of them. A failed builder does not change any more.
-/
namespace Dynarec

open Dynarec.Graph List

variable {b : Builder} {w : Workspace}

def Op.paramCount : Op → Nat
  | call _ params => params.length
  | _ => 0

/-- A register that is read or written is bound, and to the type of the value. -/
def Instr.FitsRegister (w : Workspace) (i : Instr) : Prop :=
  match i.op with
  | .read reg => (w.binding reg).isBound = true ∧ (w.binding reg).ty = i.ty
  | .write reg x => (w.binding reg).isBound = true ∧ (w.binding reg).ty = x.ty
  | _ => True

namespace Graph

/-- The numbers of the variables that are defined, in the order of their instructions. -/
def results (g : Graph) : List Int :=
  (g.instrs.filter Instr.hasResult).map Instr.res

def paramCount (g : Graph) : Nat :=
  (g.instrs.map fun i => i.op.paramCount).sum

theorem length_instrs (g : Graph) : g.instrs.length = g.instrCount := by
  rw [instrs, length_flatMap]
  rfl

end Graph

namespace Builder

/-- The graph of a builder that was started in `w` and has not failed. `taken` parameters have been
taken from the workspace for a call that is still to be appended. -/
structure WellBuilt (w : Workspace) (taken : Nat) (b : Builder) : Prop where
  error : b.error = none
  bindings : b.space.bindings = w.bindings
  current : ∀ {k : Nat}, b.current = some k → k < b.graph.blocks.size
  label : ∀ {k : Nat} {blk : Block}, b.graph.blocks[k]? = some blk → blk.label = k
  straight : ∀ {k : Nat} {blk : Block}, b.graph.blocks[k]? = some blk →
    ∀ i ∈ blk.instrs.dropLast, i.isTerminator = false
  numbered : ∃ n : Nat, b.graph.varCount = n ∧
    b.graph.results.Perm ((range n).map Int.ofNat)
  registers : ∀ i ∈ b.graph.instrs, i.FitsRegister w
  used : b.space.used = ⟨w.used.blocks + b.graph.blocks.size, w.used.instrs + b.graph.instrCount,
    w.used.params + b.graph.paramCount + taken⟩

section Push

variable {k : Nat} {blk : Block}

theorem perm_instrs_push (hk : k < b.graph.blocks.size) (i : Instr) :
    (b.push k i).graph.instrs.Perm (i :: b.graph.instrs) := by
  have hlt : k < b.graph.blocks.toList.length := hk
  have hsplit : b.graph.blocks.toList = b.graph.blocks.toList.take k ++
      b.graph.blocks.toList[k] :: b.graph.blocks.toList.drop (k + 1) := by
    rw [getElem_cons_drop, take_append_drop]
  have hpush : (b.push k i).graph.blocks.toList = b.graph.blocks.toList.take k ++
      { b.graph.blocks.toList[k] with instrs := b.graph.blocks.toList[k].instrs ++ [i] } ::
        b.graph.blocks.toList.drop (k + 1) := by
    simp only [push, Array.toList_modify]
    exact modify_eq_take_cons_drop hlt
  rw [instrs, instrs, hpush, congrArg (flatMap Block.instrs) hsplit]
  simp only [flatMap_append, flatMap_cons, append_assoc, singleton_append]
  rw [← append_assoc]
  refine perm_middle.trans (Perm.cons i ?_)
  rw [append_assoc]

theorem getElem?_push (i : Instr) (j : Nat) : (b.push k i).graph.blocks[j]? =
    if k = j then b.graph.blocks[j]?.map fun blk => { blk with instrs := blk.instrs ++ [i] }
    else b.graph.blocks[j]? :=
  Array.getElem?_modify

theorem not_isTerminator_of_mem (hk : b.current = some k) (hterm : b.isTerminated = false)
    (hblk : b.graph.blocks[k]? = some blk)
    (hstraight : ∀ i ∈ blk.instrs.dropLast, i.isTerminator = false) :
    ∀ i ∈ blk.instrs, i.isTerminator = false := by
  intro i hi
  have hne : blk.instrs ≠ [] := ne_nil_of_mem hi
  rw [← dropLast_append_getLast hne, mem_append, mem_singleton] at hi
  rcases hi with hi | rfl
  · exact hstraight i hi
  · have htail : blk.tail? = some (blk.instrs.getLast hne) := getLast?_eq_some_getLast hne
    simpa [isTerminated, hk, hblk, htail] using hterm

end Push

namespace WellBuilt

variable {taken : Nat}

theorem binding (h : WellBuilt w taken b) (reg : Int) : b.space.binding reg = w.binding reg := by
  rw [Workspace.binding, Workspace.binding, h.bindings]

theorem push {op : Op} {t : Ty} {k : Nat} (h : WellBuilt w op.paramCount b)
    (hk : b.current = some k) (hterm : b.isTerminated = false)
    (hfits : (b.numbered op t).FitsRegister w) :
    WellBuilt w 0 (b.push k (b.numbered op t)) := by
  have hlt := h.current hk
  have hperm := perm_instrs_push hlt (b.numbered op t)
  have hsize : (b.push k (b.numbered op t)).graph.blocks.size = b.graph.blocks.size :=
    Array.size_modify
  refine ⟨h.error, h.bindings, fun hk' => hsize ▸ h.current hk', fun {j blk} hj => ?_,
    fun {j blk} hj => ?_, ?_, fun i hi => ?_, ?_⟩
  · rw [getElem?_push] at hj
    split_ifs at hj with hjk
    · obtain ⟨blk', hblk', rfl⟩ := Option.map_eq_some_iff.mp hj
      exact (h.label hblk' :)
    · exact h.label hj
  · rw [getElem?_push] at hj
    split_ifs at hj with hjk
    · obtain ⟨blk', hblk', rfl⟩ := Option.map_eq_some_iff.mp hj
      subst hjk
      rw [dropLast_concat]
      exact not_isTerminator_of_mem hk hterm hblk' (h.straight hblk')
    · exact h.straight hj
  · obtain ⟨n, hn, hnumbers⟩ := h.numbered
    have hresults := (hperm.filter Instr.hasResult).map Instr.res
    by_cases hres : (b.numbered op t).hasResult = true
    · refine ⟨n + 1, by simp [Builder.push, hres, hn], hresults.trans ?_⟩
      rw [filter_cons_of_pos hres, map_cons, numbered_res hres, hn, range_succ,
        map_append]
      exact (hnumbers.cons _).trans (perm_append_singleton _ _).symm
    · refine ⟨n, by simp [Builder.push, hres, hn], hresults.trans ?_⟩
      rw [filter_cons_of_neg hres]
      exact hnumbers
  · rcases mem_cons.mp (hperm.mem_iff.mp hi) with rfl | hi
    · exact hfits
    · exact h.registers i hi
  · have hcount : (b.push k (b.numbered op t)).graph.instrCount = b.graph.instrCount + 1 := by
      rw [← length_instrs, ← length_instrs, hperm.length_eq, length_cons]
    have hparams : (b.push k (b.numbered op t)).graph.paramCount =
        op.paramCount + b.graph.paramCount := by
      rw [paramCount, (hperm.map _).sum_eq, map_cons, sum_cons, numbered_op]
      rfl
    have hused : (b.push k (b.numbered op t)).space.used =
        { b.space.used with instrs := b.space.used.instrs + 1 } := rfl
    rw [hused, h.used, hsize, hcount, hparams, Arenas.mk.injEq]
    exact ⟨rfl, Nat.add_assoc .., by dsimp only; omega⟩

/-- An operation that is appended: a register that it names is bound to the type of the value. -/
theorem emit (op : Op) (t : Ty) (h : WellBuilt w op.paramCount b)
    (hfits : (b.numbered op t).FitsRegister w) (he : (emit op t b).2.error = none) :
    WellBuilt w 0 (emit op t b).2 := by
  rcases emit_cases op t h.error with ⟨-, heq⟩ | ⟨-, heq⟩ | ⟨k, hk, hterm, -, heq⟩
  · rw [heq] at he
    cases he
  · rw [heq] at he
    cases he
  · rw [heq]
    exact h.push hk hterm hfits

theorem withBlock (h : WellBuilt w 0 b) : WellBuilt w 0 b.withBlock := by
  have hinstrs : b.withBlock.graph.instrs = b.graph.instrs := by
    simp [Builder.withBlock, instrs]
  refine ⟨h.error, h.bindings, fun {k} hk => ?_, fun {k blk} hk => ?_, fun {k blk} hk => ?_, ?_,
    hinstrs ▸ h.registers, ?_⟩
  · have := h.current hk
    rw [withBlock_size]
    omega
  · rcases Nat.lt_or_ge k b.graph.blocks.size with hlt | hge
    · exact h.label (withBlock_getElem? hlt ▸ hk)
    · have hlt := (Array.getElem?_eq_some_iff.mp hk).1
      rw [withBlock_size] at hlt
      obtain rfl : k = b.graph.blocks.size := by omega
      rw [withBlock_getElem?_size] at hk
      rw [← Option.some.inj hk]
  · rcases Nat.lt_or_ge k b.graph.blocks.size with hlt | hge
    · exact h.straight (withBlock_getElem? hlt ▸ hk)
    · have hlt := (Array.getElem?_eq_some_iff.mp hk).1
      rw [withBlock_size] at hlt
      obtain rfl : k = b.graph.blocks.size := by omega
      rw [withBlock_getElem?_size] at hk
      rw [← Option.some.inj hk]
      simp
  · rw [results, hinstrs]
    exact h.numbered
  · have hcount : b.withBlock.graph.instrCount = b.graph.instrCount := by
      rw [← length_instrs, hinstrs, length_instrs]
    have hparams : b.withBlock.graph.paramCount = b.graph.paramCount := by
      rw [paramCount, hinstrs, paramCount]
    have hused : b.withBlock.space.used =
        { b.space.used with blocks := b.space.used.blocks + 1 } := rfl
    rw [hused, h.used, withBlock_size, hcount, hparams, Arenas.mk.injEq]
    exact ⟨Nat.add_assoc .., rfl, rfl⟩

theorem newBlock (h : WellBuilt w 0 b) (he : (newBlock b).2.error = none) :
    WellBuilt w 0 (newBlock b).2 := by
  rcases newBlock_cases h.error with ⟨-, heq⟩ | ⟨-, heq⟩
  · rw [heq] at he
    cases he
  · rw [heq]
    exact h.withBlock

theorem setBlock (h : WellBuilt w 0 b) (label : Int) (he : (setBlock label b).2.error = none) :
    WellBuilt w 0 (setBlock label b).2 := by
  unfold Builder.setBlock at he ⊢
  split_ifs at he ⊢ with hfailed hout
  · exact h
  · refine ⟨h.error, h.bindings, fun {k} hk => ?_, h.label, h.straight, h.numbered, h.registers,
      h.used⟩
    cases hk
    dsimp only
    omega

theorem read (h : WellBuilt w 0 b) (reg : Int) (t : Ty) (he : (read reg t b).2.error = none) :
    WellBuilt w 0 (read reg t b).2 := by
  unfold Builder.read at he ⊢
  dsimp only at he ⊢
  split_ifs at he ⊢ with hfree hty
  · exact h
  · rw [fail_apply h.error] at he
    cases he
  · rw [h.binding] at hfree hty
    refine emit _ _ h ?_ he
    simp only [Instr.FitsRegister, numbered_op, numbered_ty]
    exact ⟨by simpa using hfree, by simpa using hty⟩

theorem write (h : WellBuilt w 0 b) (reg : Int) (x : Value) (he : (write reg x b).2.error = none) :
    WellBuilt w 0 (write reg x b).2 := by
  unfold Builder.write at he ⊢
  dsimp only at he ⊢
  split_ifs at he ⊢ with hfree hty
  · exact h
  · rw [fail_apply h.error] at he
    cases he
  · rw [h.binding] at hfree hty
    refine emit _ _ h ?_ he
    simp only [Instr.FitsRegister, numbered_op]
    refine ⟨by simpa using hfree, ?_⟩
    rw [ne_eq, not_not] at hty
    exact hty.symm

theorem call (h : WellBuilt w 0 b) (target : Option Func) (t : Ty) (params : List Value)
    (he : (call target t params b).2.error = none) : WellBuilt w 0 (call target t params b).2 := by
  rcases call_cases target t params h.error with ⟨-, heq⟩ | ⟨-, heq⟩
  · rw [heq] at he
    cases he
  · rw [heq] at he ⊢
    have hused := h.used
    have htaken : WellBuilt w params.length (b.withParams params.length) := by
      refine ⟨h.error, h.bindings, h.current, h.label, h.straight, h.numbered, h.registers, ?_⟩
      simp only [withParams, hused]
      rfl
    exact emit (.call target params) t htaken (by simp [Instr.FitsRegister]) he

end WellBuilt

/-- What a builder can be asked for, with its arguments. Its questions (`block`, `isTerminated`,
`finish`) change nothing. -/
inductive Request where
  /-- The caller reports a failure of its own; without an error that is none. -/
  | fail (e : Option BuildError)
  | newBlock
  | setBlock (label : Int)
  | binop (op : BinOp) (x y : Value)
  | icmp (op : CmpOp) (x y : Value)
  | not (x : Value)
  | trunc (t : Ty) (x : Value)
  | sext (t : Ty) (x : Value)
  | zext (t : Ty) (x : Value)
  | load (t : Ty) (addr : Value)
  | store (addr x : Value)
  | read (reg : Int) (t : Ty)
  | write (reg : Int) (x : Value)
  | alloc (t : Ty)
  | call (target : Option Func) (t : Ty) (params : List Value)
  | assert (cond : Value)
  | br (cond : Value) (ifFalse ifTrue : Int)
  | exit

def serve (b : Builder) : Request → Builder
  | .fail none => b
  | .fail (some e) => (fail e b).2
  | .newBlock => (newBlock b).2
  | .setBlock label => (setBlock label b).2
  | .binop op x y => (binop op x y b).2
  | .icmp op x y => (icmp op x y b).2
  | .not x => (Builder.not x b).2
  | .trunc t x => (trunc t x b).2
  | .sext t x => (sext t x b).2
  | .zext t x => (zext t x b).2
  | .load t addr => (load t addr b).2
  | .store addr x => (store addr x b).2
  | .read reg t => (read reg t b).2
  | .write reg x => (write reg x b).2
  | .alloc t => (alloc t b).2
  | .call target t params => (call target t params b).2
  | .assert cond => (assert cond b).2
  | .br cond ifFalse ifTrue => (br cond ifFalse ifTrue b).2
  | .exit => (exit b).2

section Serve

/-- A conversion to the type that a value has appends nothing. -/
theorem WellBuilt.cvt (h : WellBuilt w 0 b) (op : CvtOp) (t : Ty) (x : Value)
    (he : (cvt op t x b).2.error = none) : WellBuilt w 0 (cvt op t x b).2 := by
  unfold Builder.cvt at he ⊢
  split_ifs at he ⊢
  · exact h
  · exact emit _ _ h (by simp [Instr.FitsRegister]) he

/-- A request that does not fail leaves a graph that is well built. -/
theorem WellBuilt.serve (h : WellBuilt w 0 b) (q : Request) (he : (b.serve q).error = none) :
    WellBuilt w 0 (b.serve q) := by
  cases q with
  | fail e =>
    cases e with
    | none => exact h
    | some e =>
      rw [Builder.serve, fail_apply h.error] at he
      cases he
  | newBlock => exact h.newBlock he
  | setBlock label => exact h.setBlock label he
  | trunc t x => exact h.cvt .trunc t x he
  | sext t x => exact h.cvt .sext t x he
  | zext t x => exact h.cvt .zext t x he
  | read reg t => exact h.read reg t he
  | write reg x => exact h.write reg x he
  | call target t params => exact h.call target t params he
  | binop | icmp | not | load | alloc => exact emit _ _ h (by simp [Instr.FitsRegister]) he
  | store addr x => exact emit (.store addr x) .void h (by simp [Instr.FitsRegister]) he
  | assert cond => exact emit (.assert cond) .void h (by simp [Instr.FitsRegister]) he
  | br cond ifFalse ifTrue =>
    exact emit (.br cond ifFalse ifTrue) .void h (by simp [Instr.FitsRegister]) he
  | exit => exact emit .exit .void h (by simp [Instr.FitsRegister]) he

theorem serve_of_error {e : BuildError} (he : b.error = some e) (q : Request) : b.serve q = b := by
  have hsome : b.error.isSome = true := by rw [he]; rfl
  cases q with
  | fail e =>
    cases e with
    | none => rfl
    | some e => exact Keeps.keeps b hsome
  | _ => exact Keeps.keeps b hsome

/-- Started in `w`, a builder fails at once or has one empty block. -/
theorem start_wellBuilt (w : Workspace) (he : (start w).error = none) :
    WellBuilt w 0 (start w) := by
  have hempty : WellBuilt w 0 { space := w } := by
    refine ⟨rfl, rfl, fun hk => ?_, fun hk => ?_, fun hk => ?_, ⟨0, rfl, ?_⟩, ?_, ?_⟩
    · cases hk
    · simp [empty] at hk
    · simp [empty] at hk
    · simp [results, instrs, empty]
    · simp [instrs, empty]
    · simp [instrCount, paramCount, instrs, empty]
  unfold start at he ⊢
  rcases newBlock_cases hempty.error with ⟨-, heq⟩ | ⟨-, heq⟩
  · rw [heq] at he
    cases he
  · have hnonneg : ¬ ((empty.blocks.size : Int) < 0) := by omega
    rw [heq] at he ⊢
    simp only [if_neg hnonneg] at he ⊢
    exact hempty.withBlock.setBlock _ he

end Serve

/-- What can be said of a graph: block `k` carries label `k`, only its last instruction ends it,
variables are numbered without gap or repetition, registers are used with the type they are bound
to, and the workspace has given what the graph takes. -/
structure Orderly (w : Workspace) (b : Builder) : Prop where
  label : ∀ {k : Nat} {blk : Block}, b.graph.blocks[k]? = some blk → blk.label = k
  straight : ∀ {k : Nat} {blk : Block}, b.graph.blocks[k]? = some blk →
    ∀ i ∈ blk.instrs.dropLast, i.isTerminator = false
  distinct : b.graph.results.Nodup
  numbers : ∀ v, v ∈ b.graph.results ↔ 0 ≤ v ∧ v < b.graph.varCount
  registers : ∀ i ∈ b.graph.instrs, i.FitsRegister w
  used : b.space.used = ⟨w.used.blocks + b.graph.blocks.size, w.used.instrs + b.graph.instrCount,
    w.used.params + b.graph.paramCount⟩

theorem WellBuilt.orderly (h : WellBuilt w 0 b) : Orderly w b := by
  obtain ⟨n, hn, hperm⟩ := h.numbered
  refine ⟨h.label, h.straight, ?_, fun v => ?_, h.registers, h.used⟩
  · exact hperm.nodup_iff.mpr (nodup_range.map Int.ofNat_injective)
  · rw [hperm.mem_iff, hn, mem_map]
    constructor
    · rintro ⟨k, hk, rfl⟩
      have := mem_range.mp hk
      exact ⟨Int.natCast_nonneg k, by simpa using this⟩
    · rintro ⟨hlow, hhigh⟩
      exact ⟨v.toNat, mem_range.mpr (by omega), Int.toNat_of_nonneg hlow⟩

/-- Whatever a builder is asked for, in any order: its graph is in order as long as nothing has
failed, and from the first failure on it does not change. -/
theorem orderly_or_stopped (w : Workspace) (requests : List Request) :
    ((requests.foldl serve (start w)).error = none →
      Orderly w (requests.foldl serve (start w))) ∧
    ∀ e, (requests.foldl serve (start w)).error = some e → ∀ more : List Request,
      more.foldl serve (requests.foldl serve (start w)) = requests.foldl serve (start w) ∧
        (requests.foldl serve (start w)).finish = .error e := by
  have hkept : (requests.foldl serve (start w)).error = none →
      WellBuilt w 0 (requests.foldl serve (start w)) := by
    induction requests using List.reverseRecOn with
    | nil => exact start_wellBuilt w
    | append_singleton requests q ih =>
      rw [List.foldl_concat]
      intro he
      have hbefore : (requests.foldl serve (start w)).error = none := by
        by_contra hfailed
        obtain ⟨e, hsome⟩ := Option.ne_none_iff_exists'.mp hfailed
        rw [serve_of_error hsome] at he
        exact hfailed he
      exact (ih hbefore).serve q he
  refine ⟨fun he => (hkept he).orderly, fun e he more => ⟨?_, by rw [finish, he]⟩⟩
  induction more with
  | nil => rfl
  | cons q more ih => rw [List.foldl_cons, serve_of_error he, ih]

/-- In a workspace where an earlier graph was left behind, with a detour to the second block; the
write to a finished block fails and what is asked for behind it changes nothing. -/
theorem orderly_or_stopped_detour :
    let w : Workspace := ⟨2, #[⟨.i32, "a0", 8⟩], ⟨6, 9, 4⟩, ⟨3, 2, 1⟩⟩
    let requests : List Request := [.newBlock, .read 0 .i32, .setBlock 1,
      .call none .i32 [.var .i32 0, .lit .i32 7], .write 0 (.var .i32 1), .setBlock 0,
      .br (.lit .i1 1) 1 1]
    let late := requests ++ [.write 0 (.var .i32 0)]
    Orderly w (requests.foldl serve (start w)) ∧
      [.setBlock 1, .exit].foldl serve (late.foldl serve (start w)) =
        late.foldl serve (start w) := by
  intro w requests late
  have hfine : (requests.foldl serve (start w)).error = none := by decide +kernel
  have hlate : (late.foldl serve (start w)).error = some (.terminated 0) := by decide +kernel
  exact ⟨(orderly_or_stopped w requests).1 hfine,
    ((orderly_or_stopped w late).2 _ hlate [.setBlock 1, .exit]).1⟩

end Builder

end Dynarec
