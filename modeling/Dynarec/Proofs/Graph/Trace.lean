import Dynarec.Proofs.Graph.Effects
import Dynarec.Proofs.Graph.Typing

/-!
# Runs of checked graphs without frames

A checked graph defines every variable once and a run enters every block at most once. So one
valuation of the variables serves a whole run, and what an instruction does depends on the valuation
and the state alone. `Trace.Leads` describes such runs; `leads_of_run` says that every run of a
checked graph without private slots that exits or is stopped by an instruction is one of them.
-/
namespace Dynarec

open Typing Run

namespace Trace

variable {σ : Type} {W : World σ} {w : Workspace} {g : Graph} {ρ : Valuation} {idoms : Idoms}
  {count label k : Nat} {defs mid : Defs} {f f' : Frame} {s s' : σ} {i : Instr} {o : Outcome}
  {x : UInt64}

/-- The instruction goes on from `s` to `s'` and its variable has its result. -/
def Passes (W : World σ) (w : Workspace) (ρ : Valuation) (i : Instr) (s s' : σ) : Prop :=
  ∃ x, gives W w ρ s i = some (x, s') ∧ (i.hasResult = true → ρ i.res = x &&& i.ty.mask)

/-- A run from inside block `k`, with the instructions that are left there, to its outcome. -/
inductive Leads (W : World σ) (w : Workspace) (g : Graph) (ρ : Valuation) :
    Nat → List Instr → σ → Outcome → σ → Prop where
  | exit {k i rest s} (hi : i.op = .exit) :
      Leads W w g ρ k (i :: rest) s .exited s
  | halted {k i rest s s' cause} (hi : halts W w ρ s i = some (cause, s')) :
      Leads W w g ρ k (i :: rest) s (.failed (.at i cause)) s'
  | next {k i rest s s' s'' o} (hi : Passes W w ρ i s s')
      (hrest : Leads W w g ρ k rest s' o s'') : Leads W w g ρ k (i :: rest) s o s''
  | branch {k t : Nat} {i rest s s' o c ifFalse ifTrue b} (hi : i.op = .br c ifFalse ifTrue)
      (ht : (if c.eval ρ &&& 1 = 0 then ifFalse else ifTrue) = (t : Int)) (hkt : k < t)
      (hb : g.blocks[t]? = some b) (hrest : Leads W w g ρ t b.instrs s o s') :
      Leads W w g ρ k (i :: rest) s o s'

/-- An outcome that a run of a checked graph can have: it exits, or an instruction that is no branch
stops it. -/
def Decided (o : Outcome) : Prop :=
  o = .exited ∨ ∃ i cause, o = .failed (.at i cause) ∧ ∀ target, cause ≠ .branchTarget target

/-- All that a run can do at its next instruction. -/
theorem Leads.cons_cases {rest : List Instr} (h : Leads W w g ρ k (i :: rest) s o s') :
    (i.op = .exit ∧ o = .exited ∧ s' = s) ∨
    (∃ cause, halts W w ρ s i = some (cause, s') ∧ o = .failed (.at i cause)) ∨
    (∃ m, Passes W w ρ i s m ∧ Leads W w g ρ k rest m o s') ∨
    ∃ (t : Nat) (c : Value) (ifFalse ifTrue : Int) (b : Block), i.op = .br c ifFalse ifTrue ∧
      (if c.eval ρ &&& 1 = 0 then ifFalse else ifTrue) = (t : Int) ∧ k < t ∧
      g.blocks[t]? = some b ∧ Leads W w g ρ t b.instrs s o s' := by
  cases h with
  | exit hi => exact Or.inl ⟨hi, rfl, rfl⟩
  | halted hi => exact Or.inr (Or.inl ⟨_, hi, rfl⟩)
  | next hi hrest => exact Or.inr (Or.inr (Or.inl ⟨_, hi, hrest⟩))
  | branch hi ht hkt hb hrest => exact Or.inr (Or.inr (Or.inr ⟨_, _, _, _, _, hi, ht, hkt, hb, hrest⟩))

theorem Passes.isTerminator (h : Passes W w ρ i s s') : i.isTerminator = false := by
  obtain ⟨x, hx, -⟩ := h
  exact isTerminator_of_gives hx

/-- The valuation has what the frame has in the variables of the table. -/
def Agrees (ρ : Valuation) (defs : Defs) (f : Frame) : Prop :=
  ∀ {v : Nat} {p : Nat × Ty} {x : UInt64}, defs[v]? = some (some p) → f.vars[v]? = some x → ρ v = x

theorem exists_agrees (defs : Defs) (f : Frame) : ∃ ρ, Agrees ρ defs f := by
  refine ⟨fun v => (f.vars[v.toNat]?).getD 0, ?_⟩
  intro v p x _ hx
  simp [hx]

theorem Agrees.value? (h : Agrees ρ defs f) {v : Value} (hv : Usable idoms defs label v)
    (hx : f.value? v = some x) : v.eval ρ = x := by
  cases v with
  | const t y => exact Option.some.inj hx
  | var t id =>
    obtain ⟨-, at_, hid, -⟩ := hv
    obtain ⟨hnat, hentry⟩ := entryAt?_eq_some hid
    rw [Frame.value?, hnat, entryAt?_natCast] at hx
    rw [Value.eval, hnat]
    exact h hentry hx

/-- What a valuation has behind an instruction it has in front of it, and it has the result. -/
theorem Agrees.of_settle (hdef : define defs label i = .ok mid) (hstep : settle i f s x = .next f' s') (h : Agrees ρ mid f') :
    Agrees ρ defs f ∧ s' = s ∧ (i.hasResult = true → ρ i.res = x &&& i.ty.mask) := by
  unfold settle Frame.assign at hstep
  rcases define_ok hdef with ⟨hno, rfl⟩ | ⟨hyes, -, hnat, hnone, rfl⟩
  · simp only [hno, Bool.not_false, if_true, Step.next.injEq] at hstep
    obtain ⟨rfl, rfl⟩ := hstep
    exact ⟨h, rfl, fun hyes => absurd hyes (by simp [hno])⟩
  · obtain ⟨hlt, -⟩ := Array.getElem?_eq_some_iff.mp hnone
    have hres : (defs.setIfInBounds i.res.toNat (some (label, i.ty)))[i.res.toNat]? =
        some (some (label, i.ty)) := by simp [hlt]
    simp only [hyes, Bool.not_true, Bool.false_eq_true, if_false] at hstep
    split_ifs at hstep with hin
    cases hstep
    refine ⟨?_, rfl, fun _ => ?_⟩
    · intro v p y hv hy
      have hne : i.res.toNat ≠ v := by
        rintro rfl
        simp [hnone] at hv
      refine h (v := v) (p := p) ?_ ?_
      · rwa [Array.getElem?_setIfInBounds, if_neg hne]
      · rwa [Array.getElem?_setIfInBounds, if_neg hne]
    · have hsize : i.res.toNat < f.vars.size := by omega
      rw [hnat]
      refine h hres ?_
      rw [Array.getElem?_setIfInBounds, if_pos rfl, if_pos hsize]

section Steps

theorem Agrees.reads (h : Agrees ρ defs f) {vs : List Value}
    (hvs : ∀ v ∈ vs, Usable idoms defs label v) : Reads ρ f vs :=
  fun v hv _ hx => h.value? (hvs v hv) hx

theorem not_inSlots (hi : checkInstr idoms label defs i = .ok mid) (hfree : i.IsSlotFree)
    (hslots : f.slots = #[]) : ¬ InSlots f i := by
  obtain ⟨huse, -, hdef⟩ := checkInstr_ok.mp hi
  unfold InSlots
  cases hop : i.op with
  | alloc slot => exact absurd hop (hfree slot)
  | load a =>
    obtain ⟨ht, -⟩ := define_of_result hdef (by simp [Instr.hasResult, hop])
    rintro ⟨addr, h⟩
    exact h (slot?_eq_none hslots addr ht.bytes_pos)
  | store a x =>
    have ht := (huse x (by simp [hop, Op.operands])).isScalar
    rintro ⟨addr, h⟩
    exact h (slot?_eq_none hslots addr ht.bytes_pos)
  | _ => exact not_false

/-- Every step that goes on does what the valuation of the run says. -/
theorem passes_of_step (hi : checkInstr idoms label defs i = .ok mid)
    (hfree : i.IsSlotFree) (hslots : f.slots = #[])
    (hstep : step W w count label f s i = .next f' s') :
    f'.slots = #[] ∧ ∀ {ρ}, Agrees ρ mid f' → Agrees ρ defs f ∧ Passes W w ρ i s s' := by
  obtain ⟨huse, -, hdef⟩ := checkInstr_ok.mp hi
  cases acts_of_step hstep with
  | inside _ _ hin => exact absurd hin (not_inSlots hi hfree hslots)
  | exit _ hr | halts _ _ _ hr | aborts _ hr => cases hr
  | branch _ _ hr => exact absurd hr.symm (jump_ne_next _ _ _ _ _ _)
  | settles x m hgives hr =>
    refine ⟨(next_of_settle hr.symm).1.trans hslots, ?_⟩
    intro ρ hρ
    obtain ⟨hA, rfl, hres⟩ := hρ.of_settle hdef hr.symm
    exact ⟨hA, _, hgives (hA.reads huse), hres⟩

theorem not_decided_aborted : ¬ Decided .aborted := by
  rintro (h | ⟨i, cause, h, -⟩)
  · cases h
  · cases h

theorem not_decided_branchTarget (i : Instr) (target : Int) :
    ¬ Decided (.failed (.at i (.branchTarget target))) := by
  rintro (h | ⟨j, cause, h, hcause⟩)
  · cases h
  · cases h
    exact hcause target rfl

theorem not_decided_of_settle (h : settle i f s x = .stop o s') :
    ¬ Decided o := by
  unfold settle at h
  cases hf : f.assign i x with
  | none =>
    simp only [hf, Step.stop.injEq] at h
    rw [← h.1]
    exact not_decided_aborted
  | some f₁ => simp [hf] at h

/-- A step that leaves the block is a branch. -/
theorem branch_of_step {t : Nat} (hi : checkInstr idoms label defs i = .ok mid)
    (hfree : i.IsSlotFree) (hslots : f.slots = #[])
    (hstep : step W w count label f s i = .jump t f' s') :
    f' = f ∧ s' = s ∧ mid = defs ∧ label < t ∧ t < count ∧ ∃ c t₀ t₁, i.op = .br c t₀ t₁ ∧
      ∀ {ρ}, Agrees ρ defs f → (if c.eval ρ &&& 1 = 0 then t₀ else t₁) = (t : Int) := by
  obtain ⟨huse, -, hdef⟩ := checkInstr_ok.mp hi
  cases acts_of_step hstep with
  | inside _ _ hin => exact absurd hin (not_inSlots hi hfree hslots)
  | exit _ hr | halts _ _ _ hr | aborts _ hr => cases hr
  | settles _ _ _ hr => exact absurd hr.symm (settle_ne_jump _ _ _ _)
  | @branch c t₀ t₁ a hop hc hr =>
    have hmid : mid = defs := by
      rcases define_ok hdef with ⟨-, h⟩ | ⟨h, -⟩
      · exact h
      · simp [Instr.hasResult, hop] at h
    generalize htarget : (if a &&& 1 = 0 then t₀ else t₁) = target at hr
    unfold jump stopAt at hr
    split_ifs at hr with hout
    cases hr
    refine ⟨rfl, rfl, hmid, by omega, by omega, c, t₀, t₁, hop, ?_⟩
    intro ρ hρ
    rw [hρ.value? (huse c (by simp [hop, Op.operands])) hc, htarget]
    omega

/-- A step that ends the run exits, or the instruction stops it. -/
theorem halts_of_step (hi : checkInstr idoms label defs i = .ok mid)
    (hfree : i.IsSlotFree) (hslots : f.slots = #[])
    (hstep : step W w count label f s i = .stop o s') (ho : Decided o) :
    (i.op = .exit ∧ o = .exited ∧ s' = s) ∨ ∃ cause, o = .failed (.at i cause) ∧
      ∀ {ρ}, Agrees ρ defs f → halts W w ρ s i = some (cause, s') := by
  obtain ⟨huse, -, -⟩ := checkInstr_ok.mp hi
  cases acts_of_step hstep with
  | inside _ _ hin => exact absurd hin (not_inSlots hi hfree hslots)
  | exit hop hr =>
    cases hr
    exact Or.inl ⟨hop, rfl, rfl⟩
  | halts cause m hhalts hr =>
    cases hr
    exact Or.inr ⟨_, rfl, fun hρ => hhalts (hρ.reads huse)⟩
  | settles _ _ _ hr => exact absurd ho (not_decided_of_settle hr.symm)
  | aborts _ hr =>
    cases hr
    exact absurd ho not_decided_aborted
  | branch _ _ hr =>
    unfold jump stopAt at hr
    split_ifs at hr
    all_goals
      cases hr
      exact absurd ho (not_decided_branchTarget _ _)

end Steps

section Runs

/-- What is left of a block leads where the run of the block goes. -/
theorem leads_of_block (T : g.Typed) {is : List Instr} {last : Defs} (hcheck : checkInstrs T.idoms k defs is = .ok last)
    (hfree : ∀ i ∈ is, i.IsSlotFree) (hslots : f.slots = #[]) :
    (∀ {o s'}, block W w g.blocks.size k f s is = .stop o s' → Decided o →
      ∃ ρ, Agrees ρ defs f ∧ Leads W w g ρ k is s o s') ∧
    (∀ {t f' s'}, block W w g.blocks.size k f s is = .jump t f' s' →
      f'.slots = #[] ∧ k < t ∧ t < g.blocks.size ∧ ∀ {ρ o s'' b}, Agrees ρ last f' →
        g.blocks[t]? = some b → Leads W w g ρ t b.instrs s' o s'' →
        Agrees ρ defs f ∧ Leads W w g ρ k is s o s'') := by
  induction is generalizing defs f s with
  | nil =>
    refine ⟨?_, ?_⟩
    · intro o s' h ho
      simp only [block, Step.stop.injEq] at h
      obtain ⟨rfl, -⟩ := h
      rcases ho with ho | ⟨i, cause, ho, -⟩ <;> simp at ho
    · intro t f' s' h
      simp [block] at h
  | cons i rest ih =>
    obtain ⟨mid, hplace, hi, hrest⟩ := checkInstrs_cons_ok.mp hcheck
    cases hstep : step W w g.blocks.size k f s i with
    | next f₁ s₁ =>
      obtain ⟨hslots₁, hpass⟩ := passes_of_step hi (hfree i List.mem_cons_self) hslots hstep
      obtain ⟨hstop, hjump⟩ :=
        ih (s := s₁) hrest (fun j hj => hfree j (List.mem_cons_of_mem _ hj)) hslots₁
      simp only [block, hstep]
      refine ⟨?_, ?_⟩
      · intro o s' h ho
        obtain ⟨ρ, hρ, hleads⟩ := hstop h ho
        exact ⟨ρ, (hpass hρ).1, .next (hpass hρ).2 hleads⟩
      · intro t f' s' h
        obtain ⟨hslots', hkt, ht, hback⟩ := hjump h
        refine ⟨hslots', hkt, ht, ?_⟩
        intro ρ o s'' b hρ hb hleads
        obtain ⟨hρ₁, hleads₁⟩ := hback hρ hb hleads
        exact ⟨(hpass hρ₁).1, .next (hpass hρ₁).2 hleads₁⟩
    | jump t f₁ s₁ =>
      obtain ⟨rfl, rfl, rfl, hkt, ht, c, t₀, t₁, hop, htarget⟩ :=
        branch_of_step hi (hfree i List.mem_cons_self) hslots hstep
      have hterm : i.isTerminator = true := by simp [Instr.isTerminator, hop, Op.isTerminator]
      obtain rfl : rest = [] := List.isEmpty_iff.mp (hplace ▸ hterm)
      cases hrest
      simp only [block, hstep]
      refine ⟨by simp, ?_⟩
      intro t' f' s' h
      cases h
      refine ⟨hslots, hkt, ht, ?_⟩
      intro ρ o s'' b hρ hb hleads
      exact ⟨hρ, .branch hop (htarget hρ) hkt hb hleads⟩
    | stop o s₁ =>
      simp only [block, hstep]
      refine ⟨?_, by simp⟩
      intro o' s' h ho
      cases h
      obtain ⟨ρ, hρ⟩ := exists_agrees defs f
      rcases halts_of_step hi (hfree i List.mem_cons_self) hslots hstep ho with
        ⟨hop, rfl, rfl⟩ | ⟨cause, rfl, hhalts⟩
      · exact ⟨ρ, hρ, .exit hop⟩
      · exact ⟨ρ, hρ, .halted (hhalts hρ)⟩

theorem leads_of_enter (T : g.Typed) (hfree : g.IsSlotFree) (hk : k < g.blocks.size)
    (hslots : f.slots = #[]) (h : enter W w g k f s = (o, s')) (ho : Decided o) :
    ∃ ρ, Agrees ρ (T.defs k) f ∧ Leads W w g ρ k (g.blocks[k]).instrs s o s' := by
  induction hn : g.blocks.size - k using Nat.strong_induction_on generalizing k f s with
  | _ n ih =>
    have hb : g.blocks[k]? = some g.blocks[k] := Array.getElem?_eq_getElem hk
    obtain ⟨-, -, hcheck⟩ := T.block hb
    obtain ⟨hstop, hjump⟩ := leads_of_block (W := W) (w := w) (s := s) T hcheck (hfree hb) hslots
    rw [enter, dif_pos hk] at h
    cases hblock : block W w g.blocks.size k f s g.blocks[k].instrs with
    | next f₁ s₁ =>
      simp only [hblock, Prod.mk.injEq] at h
      obtain ⟨rfl, -⟩ := h
      exact absurd ho not_decided_aborted
    | stop o' s₁ =>
      simp only [hblock, Prod.mk.injEq] at h
      obtain ⟨rfl, rfl⟩ := h
      exact hstop hblock ho
    | jump t f₁ s₁ =>
      obtain ⟨hslots₁, hkt, ht, hback⟩ := hjump hblock
      simp only [hblock, if_pos hkt] at h
      obtain ⟨ρ, hρ, hleads⟩ := ih _ (by omega) ht hslots₁ h rfl
      have hρ' : Agrees ρ (T.defs (k + 1)) f₁ := fun hv =>
        hρ (T.defs_mono hkt ht.le hv)
      exact ⟨ρ, hback hρ' (Array.getElem?_eq_getElem ht) hleads⟩

/-- Every run of a checked graph without private slots whose end the graph decides is described by
one valuation. -/
theorem leads_of_run (hg : g.typecheck = .accepted) (hfree : g.IsSlotFree)
    (h : g.run W w s = (o, s')) (ho : Decided o) :
    ∃ ρ b, g.blocks[0]? = some b ∧ Leads W w g ρ 0 b.instrs s o s' := by
  obtain ⟨hne, hroom, ⟨T⟩⟩ := Graph.typecheck_eq_accepted.mp hg
  have hempty : g.blocks.isEmpty = false := by simpa using hne
  have hk : 0 < g.blocks.size := Nat.pos_of_ne_zero hne
  simp only [Graph.run, hempty, hroom, Bool.not_true, Bool.false_eq_true, if_false] at h
  obtain ⟨ρ, -, hleads⟩ := leads_of_enter T hfree hk rfl h ho
  exact ⟨ρ, _, Array.getElem?_eq_getElem hk, hleads⟩

end Runs

end Trace

end Dynarec
