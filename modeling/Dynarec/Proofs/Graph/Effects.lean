import Dynarec.Proofs.Graph.World

/-!
# What one instruction does

A step of a run exits, branches, settles a result, halts or aborts. `Trace.gives` and `Trace.halts` are
the results and the failures of an instruction as functions of the values of its operands, and
`Trace.acts_step` says once that a step is nothing else, but for what it does in private slots.
-/
namespace Dynarec

open Run

/-- What a run gives to the variables. -/
abbrev Valuation := Int → UInt64

def Value.eval (ρ : Valuation) : Value → UInt64
  | .const _ x => x
  | .var _ id => ρ id

namespace Trace

variable {σ : Type} {W : World σ} {w : Workspace} {count label : Nat} {f f' : Frame} {s s' : σ}
  {i : Instr} {ρ : Valuation}

/-- The result of an instruction that goes on, and the state after it. -/
def gives (W : World σ) (w : Workspace) (ρ : Valuation) (s : σ) (i : Instr) : Option (UInt64 × σ) :=
  match i.op with
  | .assert c => if c.eval ρ = 0 then none else some (0, s)
  | .call target params =>
      (target.bind W.call).map fun impl => impl (params.map (Value.eval ρ)) s
  | .not x => some (~~~x.eval ρ, s)
  | .binop op x y => some (Eval.binop op i.ty (x.eval ρ) (y.eval ρ), s)
  | .icmp op x y => some (Eval.ofBool (Eval.cmp op x.ty (x.eval ρ) (y.eval ρ)), s)
  | .load a =>
      match W.load s i.ty.accessBytes (a.eval ρ) with
      | (some x, s) => some (x, s)
      | (none, _) => none
  | .store a x =>
      match W.store s x.ty.accessBytes (a.eval ρ) (x.eval ρ) with
      | (true, s) => some (0, s)
      | (false, _) => none
  | .read reg =>
      let b := w.binding reg
      if b.isBound then some (W.readCell s b.cell b.ty.accessBytes, s) else none
  | .write reg x =>
      let b := w.binding reg
      if b.isBound then some (0, W.writeCell s b.cell b.ty.accessBytes (x.eval ρ)) else none
  | .cvt op x => some (Eval.cvt op x.ty i.ty (x.eval ρ), s)
  | .exit | .br _ _ _ | .alloc _ | .unknown _ => none

/-- Why an instruction stops the run, and the state it leaves. -/
def halts (W : World σ) (w : Workspace) (ρ : Valuation) (s : σ) (i : Instr) :
    Option (RunCause × σ) :=
  match i.op with
  | .assert c => if c.eval ρ = 0 then some (.assertion, s) else none
  | .call target _ => if (target.bind W.call).isNone then some (.noImplementation, s) else none
  | .load a =>
      match W.load s i.ty.accessBytes (a.eval ρ) with
      | (none, s) => some (.loadFault (a.eval ρ), s)
      | (some _, _) => none
  | .store a x =>
      match W.store s x.ty.accessBytes (a.eval ρ) (x.eval ρ) with
      | (false, s) => some (.storeFault (a.eval ρ), s)
      | (true, _) => none
  | .read reg => if (w.binding reg).isBound then none else some (.unboundRead, s)
  | .write reg _ => if (w.binding reg).isBound then none else some (.unboundWrite, s)
  | .unknown _ => some (.unknownInstr, s)
  | .exit | .br _ _ _ | .alloc _ | .not _ | .binop _ _ _ | .icmp _ _ _ | .cvt _ _ => none

theorem halts_eq_none {p : UInt64 × σ} (h : gives W w ρ s i = some p) : halts W w ρ s i = none := by
  obtain ⟨op, ty, res⟩ := i
  cases op with
  | assert c =>
    simp only [gives] at h
    split_ifs at h with hc
    simp [halts, hc]
  | call target params =>
    obtain ⟨impl, himpl, -⟩ := Option.map_eq_some_iff.mp h
    simp [halts, himpl]
  | load a =>
    simp only [gives] at h
    split at h
    · rename_i hload
      simp [halts, hload]
    · cases h
  | store a x =>
    simp only [gives] at h
    split at h
    · rename_i hstore
      simp [halts, hstore]
    · cases h
  | read reg | write reg x =>
    simp only [gives] at h
    split_ifs at h with hbound
    simp [halts, hbound]
  | unknown tag => cases h
  | _ => rfl

theorem isTerminator_of_gives {p : UInt64 × σ} (h : gives W w ρ s i = some p) :
    i.isTerminator = false := by
  unfold Instr.isTerminator
  cases hop : i.op <;> simp_all [gives, Op.isTerminator]

/-- The instruction reserves a private slot, or its address is in one. -/
def InSlots (f : Frame) (i : Instr) : Prop :=
  match i.op with
  | .alloc _ => True
  | .load _ => ∃ a, f.slot? a i.ty.bytes ≠ none
  | .store _ x => ∃ a, f.slot? a x.ty.bytes ≠ none
  | _ => False

theorem InSlots.isTerminator (h : InSlots f i) : i.isTerminator = false := by
  unfold Instr.isTerminator
  cases hop : i.op <;> simp_all [InSlots, Op.isTerminator]

theorem slot?_eq_none {f : Frame} (h : f.slots = #[]) (addr : UInt64) {n : Nat} (hn : 0 < n) :
    f.slot? addr n = none := by
  have hsize : f.slots.size < (addr - Frame.slotBase).toNat + n := by
    rw [h, Array.size_empty]
    omega
  simp [Frame.slot?, hsize]

/-- The valuation has what the frame has in the values `vs`. -/
def Reads (ρ : Valuation) (f : Frame) (vs : List Value) : Prop :=
  ∀ v ∈ vs, ∀ x, f.value? v = some x → v.eval ρ = x

theorem exists_reads (f : Frame) (vs : List Value) : ∃ ρ, Reads ρ f vs := by
  refine ⟨fun v => (entryAt? f.vars v).getD 0, fun v _ x hx => ?_⟩
  cases v with
  | const t y => exact Option.some.inj hx
  | var t id => simp only [Value.eval, show entryAt? f.vars id = some x from hx, Option.getD_some]

theorem Reads.values? {vs : List Value} {xs : List UInt64} (h : Reads ρ f vs)
    (hxs : f.values? vs = some xs) : vs.map (Value.eval ρ) = xs := by
  induction vs generalizing xs with
  | nil => exact Option.some.inj hxs
  | cons v vs ih =>
    simp only [Frame.values?, Option.bind_eq_bind, Option.bind_eq_some_iff, Option.pure_def,
      Option.some.injEq] at hxs
    obtain ⟨x, hx, ys, hys, rfl⟩ := hxs
    rw [List.map_cons, h v List.mem_cons_self x hx, ih (fun u hu => h u (List.mem_cons_of_mem _ hu)) hys]

theorem values?_isSome {vs : List Value} (h : ∀ v ∈ vs, ∃ x, f.value? v = some x) :
    ∃ xs, f.values? vs = some xs := by
  induction vs with
  | nil => exact ⟨[], rfl⟩
  | cons v vs ih =>
    obtain ⟨x, hx⟩ := h v List.mem_cons_self
    obtain ⟨xs, hxs⟩ := ih fun u hu => h u (List.mem_cons_of_mem _ hu)
    exact ⟨x :: xs, by simp [Frame.values?, hx, hxs]⟩

theorem settle_of_hasResult (hno : i.hasResult = false) (f : Frame) (s : σ) (x : UInt64) :
    settle i f s x = .next f s := by
  simp [settle, Frame.assign, hno]

/-- All that an instruction can do. -/
inductive Acts (W : World σ) (w : Workspace) (count label : Nat) (f : Frame) (s : σ) (i : Instr)
    (r : Step σ) : Prop
  | exit (hop : i.op = .exit) (hr : r = .stop .exited s)
  | branch {c : Value} {ifFalse ifTrue : Int} {a : UInt64} (hop : i.op = .br c ifFalse ifTrue)
      (hc : f.value? c = some a)
      (hr : r = jump count label i f s (if a &&& 1 = 0 then ifFalse else ifTrue))
  | settles (x : UInt64) (m : σ)
      (hgives : ∀ {ρ}, Reads ρ f i.op.operands → gives W w ρ s i = some (x, m))
      (hr : r = settle i f m x)
  | inside (f' : Frame) (x : UInt64) (hin : InSlots f i) (hvars : f'.vars = f.vars)
      (hr : r = settle i f' s x)
  | halts (cause : RunCause) (m : σ)
      (hhalts : ∀ {ρ}, Reads ρ f i.op.operands → halts W w ρ s i = some (cause, m))
      (hr : r = stopAt i m cause)
  | aborts (hno : ¬ ∀ v ∈ i.op.operands, ∃ x, f.value? v = some x) (hr : r = .stop .aborted s)

theorem acts_step (W : World σ) (w : Workspace) (count label : Nat) (f : Frame) (s : σ) (i : Instr) :
    Acts W w count label f s i (step W w count label f s i) := by
  obtain ⟨op, ty, res⟩ := i
  -- an operand without a value aborts the run, one with a value has it in every valuation
  have hread {v : Value} {x : UInt64} (hx : f.value? v = some x) (hv : v ∈ op.operands) {ρ : Valuation}
      (hρ : Reads ρ f op.operands) : v.eval ρ = x := hρ v hv x hx
  cases op with
  | exit => exact .exit rfl rfl
  | unknown tag => exact .halts _ _ (fun _ => rfl) rfl
  | alloc slot => exact .inside (f.reserve slot).2 _ trivial rfl rfl
  | br c t₀ t₁ =>
    cases hc : f.value? c with
    | none => exact .aborts (fun h => by simp [Op.operands, hc] at h) (by simp [step, hc])
    | some a => exact .branch rfl hc (by simp [step, hc])
  | assert c =>
    cases hc : f.value? c with
    | none => exact .aborts (fun h => by simp [Op.operands, hc] at h) (by simp [step, hc])
    | some a =>
      have hread := @hread c a hc (by simp [Op.operands])
      by_cases ha : a = 0
      · exact .halts .assertion s (fun hρ => by simp [halts, hread hρ, ha]) (by simp [step, hc, ha])
      · refine .settles 0 s (fun hρ => by simp [gives, hread hρ, ha]) ?_
        rw [settle_of_hasResult rfl]
        simp [step, hc, ha]
  | call target params =>
    cases ht : target.bind W.call with
    | none => exact .halts .noImplementation s (fun _ => by simp [halts, ht]) (by simp [step, ht])
    | some impl =>
      cases hxs : f.values? params with
      | none =>
        refine .aborts (fun h => ?_) (by simp [step, withValues, ht, hxs])
        obtain ⟨xs, hall⟩ := values?_isSome h
        cases hxs.symm.trans hall
      | some xs =>
        refine .settles (impl xs s).1 (impl xs s).2 (fun hρ => ?_)
          (by simp only [step, withValues, ht, hxs])
        have hargs : params.map (Value.eval _) = xs := hρ.values? hxs
        simp [gives, ht, hargs]
  | not x | cvt op x =>
    cases hx : f.value? x with
    | none => exact .aborts (fun h => by simp [Op.operands, hx] at h) (by simp [step, hx])
    | some a =>
      have hread := @hread x a hx (by simp [Op.operands])
      exact .settles _ s (fun hρ => by simp only [gives, hread hρ]; rfl) (by simp only [step, hx])
  | binop op x y | icmp op x y =>
    cases hx : f.value? x with
    | none => exact .aborts (fun h => by simp [Op.operands, hx] at h) (by simp [step, hx])
    | some a =>
      cases hy : f.value? y with
      | none => exact .aborts (fun h => by simp [Op.operands, hy] at h) (by simp [step, hx, hy])
      | some b =>
        have hreadx := @hread x a hx (by simp [Op.operands])
        have hready := @hread y b hy (by simp [Op.operands])
        exact .settles _ s (fun hρ => by simp only [gives, hreadx hρ, hready hρ]; rfl)
          (by simp only [step, hx, hy])
  | load a =>
    cases ha : f.value? a with
    | none => exact .aborts (fun h => by simp [Op.operands, ha] at h) (by simp [step, ha])
    | some addr =>
      have hread := @hread a addr ha (by simp [Op.operands])
      cases hslot : f.slot? addr ty.bytes with
      | some offset =>
        exact .inside f (f.readSlot offset ty.bytes) ⟨addr, by simp [hslot]⟩ rfl
          (by simp only [step, load, ha, hslot])
      | none =>
        rcases hl : W.load s ty.accessBytes addr with ⟨_ | x, m⟩
        · exact .halts (.loadFault addr) m (fun hρ => by simp [halts, hread hρ, hl])
            (by simp only [step, load, ha, hslot, hl])
        · exact .settles x m (fun hρ => by simp [gives, hread hρ, hl])
            (by simp only [step, load, ha, hslot, hl])
  | store a x =>
    cases ha : f.value? a with
    | none => exact .aborts (fun h => by simp [Op.operands, ha] at h) (by simp [step, ha])
    | some addr =>
      cases hx : f.value? x with
      | none => exact .aborts (fun h => by simp [Op.operands, hx] at h) (by simp [step, ha, hx])
      | some y =>
        have hreada := @hread a addr ha (by simp [Op.operands])
        have hreadx := @hread x y hx (by simp [Op.operands])
        cases hslot : f.slot? addr x.ty.bytes with
        | some offset =>
          refine .inside (f.writeSlot offset x.ty.bytes y) 0 ⟨addr, by simp [hslot]⟩ rfl ?_
          rw [settle_of_hasResult rfl]
          simp only [step, store, ha, hx, hslot]
        | none =>
          rcases hl : W.store s x.ty.accessBytes addr y with ⟨_ | _, m⟩
          · exact .halts (.storeFault addr) m (fun hρ => by simp [halts, hreada hρ, hreadx hρ, hl])
              (by simp only [step, store, ha, hx, hslot, hl])
          · refine .settles 0 m (fun hρ => by simp [gives, hreada hρ, hreadx hρ, hl]) ?_
            rw [settle_of_hasResult rfl]
            simp only [step, store, ha, hx, hslot, hl]
  | read r =>
    cases hb : (w.binding r).isBound with
    | false => exact .halts .unboundRead s (fun _ => by simp [halts, hb]) (by simp [step, hb])
    | true =>
      exact .settles (W.readCell s (w.binding r).cell (w.binding r).ty.accessBytes) s
        (fun _ => by simp [gives, hb]) (by simp [step, hb])
  | write r x =>
    cases hb : (w.binding r).isBound with
    | false => exact .halts .unboundWrite s (fun _ => by simp [halts, hb]) (by simp [step, hb])
    | true =>
      cases hx : f.value? x with
      | none => exact .aborts (fun h => by simp [Op.operands, hx] at h) (by simp [step, hb, hx])
      | some y =>
        have hread := @hread x y hx (by simp [Op.operands])
        refine .settles 0 (W.writeCell s (w.binding r).cell (w.binding r).ty.accessBytes y)
          (fun hρ => by simp [gives, hb, hread hρ]) ?_
        rw [settle_of_hasResult rfl]
        simp [step, hb, hx]

theorem acts_of_step {r : Step σ} (hstep : step W w count label f s i = r) :
    Acts W w count label f s i r :=
  hstep ▸ acts_step W w count label f s i

theorem jump_ne_next (count label : Nat) (i : Instr) (f : Frame) (s : σ) (target : Int) :
    jump count label i f s target ≠ .next f' s' := by
  unfold jump stopAt
  split_ifs <;> rintro ⟨⟩

theorem next_of_settle {x : UInt64} (h : settle i f s x = .next f' s') :
    f'.slots = f.slots ∧ s' = s := by
  unfold settle Frame.assign at h
  split_ifs at h <;> cases h <;> exact ⟨rfl, rfl⟩

theorem settle_ne_jump (i : Instr) (f : Frame) (s : σ) (x : UInt64) {t : Nat} :
    settle i f s x ≠ .jump t f' s' := by
  unfold settle
  cases f.assign i x <;> rintro ⟨⟩

end Trace

end Dynarec
