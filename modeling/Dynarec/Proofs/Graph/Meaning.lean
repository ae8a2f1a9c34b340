import Dynarec.Proofs.Graph.Builder
import Dynarec.Proofs.Graph.Trace

/-!
# What building steps mean

A finished graph and one of its runs are fixed. A builder that made a beginning of the graph stands at
a place of the run if the run still has to pass what the builder appends next. `Course.After` says what
is known when the builder has taken a step: mostly that it stands further on, in the state that the
appended operations lead to. An access to memory may also have stopped the run.
-/
namespace Dynarec

open Instr

variable {v x : Value} {stopped : Prop} {op : Op}

/-- A value has type `t` and the content `x`. -/
structure Value.Holds (ρ : Valuation) (v : Value) (t : Ty) (x : BitVec t.bits) : Prop where
  ty : v.ty = t
  low : t.low (v.eval ρ) = x
  fits : t.Fits (v.eval ρ)

theorem Value.holds_lit (ρ : Valuation) {t : Ty} (ht : t.IsScalar) (x : UInt64) :
    (Value.lit t x).Holds ρ t (t.low x) :=
  ⟨rfl, Ty.low_and_mask ht.bits_le x, t.fits_and_mask x⟩

theorem Value.Holds.toNat_eval {ρ : Valuation} {t : Ty} {x : BitVec t.bits} (h : v.Holds ρ t x)
    (ht : t.IsScalar) : (v.eval ρ).toNat = x.toNat := by
  rw [← h.low, Ty.toNat_low, Nat.mod_eq_of_lt ((Ty.fits_iff_lt ht.bits_le _).mp h.fits)]

theorem Builder.Straight.getElem?_of_ne {α : Type} {a : Build α} [Straight a] {b : Builder}
    {k j : Nat} (hk : b.current = some k) (he : (a b).2.error = none) (hj : j ≠ k) :
    (a b).2.graph.blocks[j]? = b.graph.blocks[j]? := by
  obtain ⟨is, his⟩ := Straight.appends hk he
  rw [his.blocks, Array.getElem?_modify, if_neg (Ne.symm hj)]

/-- A finished graph and one of its runs. -/
structure Course (σ : Type) where
  world : World σ
  space : Workspace
  graph : Graph
  values : Valuation
  outcome : Outcome
  final : σ

namespace Course

open Builder Trace

variable {σ α β : Type} (r : Course σ)

/-- What is left of block `k` when the run is in state `s` there. -/
def Faces (k : Nat) (rest : List Instr) (s : σ) : Prop :=
  Leads r.world r.space r.graph r.values k rest s r.outcome r.final

/-- The run enters block `k` in state `s`. -/
def Enters (k : Nat) (s : σ) : Prop :=
  ∃ blk, r.graph.blocks[k]? = some blk ∧ r.Faces k blk.instrs s

/-- In state `s` the run faces what the builder appends next. -/
structure Stands (b : Builder) (s : σ) : Prop where
  bindings : b.space.bindings = r.space.bindings
  place : ∃ k blk rest, b.current = some k ∧ b.graph.blocks[k]? = some blk ∧
    r.graph.blocks[k]? = some { blk with instrs := blk.instrs ++ rest } ∧ r.Faces k rest s

/-- What is known after a step that the run passes in state `s`, if the step does not fail and the
graph goes on from it. -/
def After (a : Build α) (s : σ) (post : α → Builder → Prop) : Prop :=
  ∀ b, r.Stands b s → (a b).2.error = none → (a b).2.graph.Begins r.graph →
    post (a b).1 (a b).2

/-- A step behind which the run goes on in the block. -/
def Does (a : Build α) (s : σ) (post : α → σ → Prop) : Prop :=
  r.After a s fun x b => ∃ s', post x s' ∧ r.Stands b s'

/-- A step behind which the run goes on in the block, if it was not stopped there. -/
def Tries (a : Build α) (s : σ) (stopped : Prop) (post : α → σ → Prop) : Prop :=
  r.After a s fun x b => stopped ∨ ∃ s', post x s' ∧ r.Stands b s'

def Stopped (cause : RunCause) : Prop :=
  ∃ i, r.outcome = .failed (.at i cause)

/-- A step that computes a value and changes nothing. -/
def Yields (a : Build Value) (s : σ) (t : Ty) (x : BitVec t.bits) : Prop :=
  r.Does a s fun v s' => s' = s ∧ v.Holds r.values t x

variable {r} {s : σ} {t u : Ty} {a : Build α} {g : α → Build β} {mid : α → σ → Prop}
  {post : β → Builder → Prop}

theorem After.mono {a : Build β} {post' : β → Builder → Prop} (ha : r.After a s post)
    (h : ∀ x b, post x b → post' x b) : r.After a s post' :=
  fun b hb he hg => h _ _ (ha b hb he hg)

theorem After.bind_pure {f : α → β} (ha : r.After a s fun x b => post (f x) b) :
    r.After (a >>= fun x => pure (f x)) s post :=
  fun b hb he hg => ha b hb he hg

theorem Tries.bind [∀ x, Keeps (g x)] (ha : r.Tries a s stopped mid)
    (hg : ∀ x s', mid x s' → r.After (g x) s' post) (hstop : stopped → ∀ x b, post x b) :
    r.After (a >>= g) s post := by
  intro b hb he hbegins
  rw [bind_apply] at he hbegins ⊢
  have hmid : (a b).2.graph.Begins r.graph :=
    Graph.Begins.trans (Keeps.onward (a := g (a b).1) (a b).2).begins hbegins
  rcases ha b hb (Keeps.error_eq_none (g _) he) hmid with hstopped | ⟨s', hs', hstands⟩
  · exact hstop hstopped _ _
  · exact hg _ s' hs' _ hstands he hbegins

theorem Does.tries (ha : r.Does a s mid) (stopped : Prop) : r.Tries a s stopped mid :=
  ha.mono fun _ _ h => Or.inr h

theorem Does.bind [∀ x, Keeps (g x)] (ha : r.Does a s mid)
    (hg : ∀ x s', mid x s' → r.After (g x) s' post) : r.After (a >>= g) s post :=
  (ha.tries False).bind hg False.elim

theorem Tries.does (ha : r.Tries a s stopped mid) (hstop : ¬ stopped) : r.Does a s mid :=
  ha.mono fun _ _ h => h.resolve_left hstop

theorem Yields.bind {a : Build Value} {g : Value → Build β} [∀ v, Keeps (g v)] {x : BitVec t.bits}
    (ha : r.Yields a s t x) (hg : ∀ v, v.Holds r.values t x → r.After (g v) s post) :
    r.After (a >>= g) s post := by
  refine Does.bind ha ?_
  rintro v _ ⟨rfl, hv⟩
  exact hg v hv

theorem does_pure {x : α} {post : α → σ → Prop} (h : post x s) :
    r.Does (pure x : Build α) s post :=
  fun _ hb _ _ => ⟨s, h, hb⟩

theorem yields_pure {x : BitVec t.bits} (hv : v.Holds r.values t x) : r.Yields (pure v) s t x :=
  does_pure ⟨rfl, hv⟩

theorem faces_push {b : Builder} {i : Instr} {k : Nat} (hb : r.Stands b s)
    (hk : b.current = some k) (hbegins : (b.push k i).graph.Begins r.graph) :
    ∃ (blk : Block) (rest : List Instr),
      (b.push k i).graph.blocks[k]? = some { blk with instrs := blk.instrs ++ [i] } ∧
      r.graph.blocks[k]? = some { blk with instrs := blk.instrs ++ i :: rest } ∧
      r.Faces k (i :: rest) s := by
  obtain ⟨k', blk, rest, hk', hblk, hall, hfaces⟩ := hb.place
  cases hk.symm.trans hk'
  have hpush : (b.push k i).graph.blocks[k]? = some { blk with instrs := blk.instrs ++ [i] } := by
    simp only [Builder.push]
    rw [Array.getElem?_modify, if_pos rfl, hblk]
    rfl
  obtain ⟨rest', hrest'⟩ := hbegins hpush
  have hinstrs := congrArg Block.instrs (Option.some.inj (hall.symm.trans hrest'))
  simp only [List.append_assoc, List.singleton_append, List.append_cancel_left_eq] at hinstrs
  subst hinstrs
  exact ⟨blk, rest', hpush, hall, hfaces⟩

theorem faces_emit {b : Builder} (hb : r.Stands b s) (he : (emit op t b).2.error = none)
    (hbegins : (emit op t b).2.graph.Begins r.graph) :
    ∃ (k : Nat) (i : Instr) (blk : Block) (rest : List Instr), i.op = op ∧ i.ty = t ∧
      emit op t b = (i.result, b.push k i) ∧ b.current = some k ∧
      r.graph.blocks[k]? = some { blk with instrs := blk.instrs ++ i :: rest } ∧
      (b.push k i).graph.blocks[k]? = some { blk with instrs := blk.instrs ++ [i] } ∧
      r.Faces k (i :: rest) s := by
  have hnone := Keeps.error_eq_none (emit op t) he
  rcases emit_cases op t hnone with ⟨-, h⟩ | ⟨-, h⟩ | ⟨k, hk, -, -, h⟩
  · simp [h] at he
  · simp [h] at he
  · rw [h] at hbegins
    obtain ⟨blk, rest, hpush, hall, hfaces⟩ := faces_push hb hk hbegins
    exact ⟨k, b.numbered op t, blk, rest, numbered_op b op t, numbered_ty b op t, h, hk, hall,
      hpush, hfaces⟩

/-- An operation that is no terminator passes or stops the run. -/
theorem tries_emit (hterm : op.isTerminator = false) {post : Value → σ → Prop}
    (hstop : ∀ i cause, i.op = op → i.ty = t →
      halts r.world r.space r.values s i = some (cause, r.final) → r.Stopped cause → stopped)
    (h : ∀ i s', i.op = op → i.ty = t → Passes r.world r.space r.values i s s' → post i.result s') :
    r.Tries (emit op t) s stopped post := by
  intro b hb he hbegins
  obtain ⟨k, i, blk, rest, hop, hty, heq, hk, hall, hpush, hfaces⟩ := faces_emit hb he hbegins
  have hstands {s' : σ} (hrest : r.Faces k rest s') : r.Stands (b.push k i) s' :=
    ⟨hb.bindings, k, _, rest, hk, hpush, by simpa using hall, hrest⟩
  rw [heq]
  rcases hfaces.cons_cases with ⟨hi, -⟩ | ⟨cause, hhalts, houtcome⟩ | ⟨s', hpass, hrest⟩ |
    ⟨-, c, t₀, t₁, -, hi, -⟩
  · rw [← hop, hi] at hterm
    cases hterm
  · exact Or.inl (hstop i cause hop hty hhalts ⟨i, houtcome⟩)
  · exact Or.inr ⟨s', h i s' hop hty hpass, hstands hrest⟩
  · rw [← hop, hi] at hterm
    cases hterm

theorem tries_void {p : σ → Prop} (h : r.Tries (emit op Ty.void) s stopped fun _ => p) :
    r.Tries (emit_ op) s stopped fun _ => p :=
  h

theorem does_emit (hgoes : ∀ i : Instr, i.op = op → i.ty = t →
      ∃ p, gives r.world r.space r.values s i = some p) {post : Value → σ → Prop}
    (h : ∀ i s', i.op = op → i.ty = t → Passes r.world r.space r.values i s s' → post i.result s') :
    r.Does (emit op t) s post := by
  have hterm : op.isTerminator = false := by
    obtain ⟨p, hp⟩ := hgoes ⟨op, t, 0⟩ rfl rfl
    cases op <;> first | rfl | cases hp
  suffices htries : r.Tries (emit op t) s False post from htries.does not_false
  refine tries_emit hterm ?_ h
  intro i cause hop hty hhalts _
  obtain ⟨p, hp⟩ := hgoes i hop hty
  rw [halts_eq_none hp] at hhalts
  cases hhalts

theorem does_emit_ (hgoes : ∀ i : Instr, i.op = op → i.ty = Ty.void →
      ∃ p, gives r.world r.space r.values s i = some p) {post : σ → Prop}
    (h : ∀ i s', i.op = op → Passes r.world r.space r.values i s s' → post s') :
    r.Does (emit_ op) s fun _ s' => post s' := by
  have hemit : r.Does (emit op Ty.void) s fun _ s' => post s' :=
    does_emit hgoes fun i s' hop _ => h i s' hop
  exact hemit

theorem holds_of_passes {i : Instr} {y : UInt64} (ht : i.ty.IsScalar)
    (h : r.values i.res = y &&& i.ty.mask) : i.result.Holds r.values i.ty (i.ty.low y) := by
  refine ⟨rfl, ?_, ?_⟩
  · rw [result, Value.eval, h, Ty.low_and_mask ht.bits_le]
  · rw [result, Value.eval, h]
    exact Ty.fits_and_mask _ _

theorem yields_emit (ht : t.IsScalar)
    (hres : ∀ i : Instr, i.op = op → i.ty = t → i.hasResult = true) (y : UInt64)
    (h : ∀ i : Instr, i.op = op → i.ty = t →
      gives r.world r.space r.values s i = some (y, s)) : r.Yields (emit op t) s t (t.low y) := by
  refine does_emit (fun i hop hty => ⟨_, h i hop hty⟩) ?_
  rintro i s' hop rfl ⟨z, hgives, hvar⟩
  rw [h i hop rfl] at hgives
  obtain ⟨rfl, rfl⟩ := Prod.mk.inj (Option.some.inj hgives)
  exact ⟨rfl, holds_of_passes ht (hvar (hres i hop rfl))⟩

section Operations

variable {y : Value} {a b : BitVec t.bits} (ht : t.IsScalar) (hx : x.Holds r.values t a)
include ht hx

theorem yields_binop (op : BinOp) (hy : y.Holds r.values t b) :
    r.Yields (binop op x y) s t (op.onBits a b) := by
  unfold binop
  rw [hx.ty, ← hx.low, ← hy.low, ← Eval.low_binop ht]
  refine yields_emit ht (fun i hop _ => by simp [hasResult, hop]) _ ?_
  rintro i hop rfl
  simp only [gives, hop]

theorem yields_icmp (op : CmpOp) (hy : y.Holds r.values t b) :
    r.Yields (icmp op x y) s Ty.i1 (Ty.i1.low (Eval.ofBool (op.onBits a b))) := by
  rw [← hx.low, ← hy.low, ← Eval.cmp_eq_onBits ht]
  refine yields_emit (by decide) (fun i hop _ => by simp [hasResult, hop]) _ ?_
  intro i hop _
  simp only [gives, hop, hx.ty]

theorem yields_not : r.Yields (Builder.not x) s t (~~~a) := by
  unfold Builder.not
  rw [hx.ty, ← hx.low, ← Eval.low_not ht.bits_le]
  refine yields_emit ht (fun i hop _ => by simp [hasResult, hop]) _ ?_
  intro i hop _
  simp only [gives, hop]

theorem yields_cvt (op : CvtOp) (hu : u.IsScalar) :
    r.Yields (cvt op u x) s u (op.onBits u.bits a) := by
  unfold cvt
  split_ifs with htu
  · obtain rfl : t = u := hx.ty.symm.trans htu
    have hsame : op.onBits t.bits a = a := by
      cases op <;> simp [CvtOp.onBits]
    rw [hsame]
    exact yields_pure hx
  · rw [← hx.low, ← Eval.low_cvt ht hu]
    refine yields_emit hu (fun i hop _ => by simp [hasResult, hop]) _ ?_
    rintro i hop rfl
    simp only [gives, hop, hx.ty]

end Operations

theorem eval_eq_of_holds {a : BitVec Ty.i64.bits} (hx : x.Holds r.values Ty.i64 a) :
    x.eval r.values = ⟨a⟩ := by
  rw [← hx.low]
  simp [Ty.low, Ty.i64]

theorem tries_load {a : BitVec Ty.i64.bits} (ht : t.IsScalar) (hx : x.Holds r.values Ty.i64 a) :
    r.Tries (load t x) s
      (r.Stopped (.loadFault ⟨a⟩) ∧ r.world.load s t.accessBytes ⟨a⟩ = (none, r.final))
      fun v s' => ∃ y, r.world.load s t.accessBytes ⟨a⟩ = (some y, s') ∧
        v.Holds r.values t (t.low y) := by
  refine tries_emit rfl ?_ ?_
  · rintro i cause hop rfl hhalts hstopped
    simp only [halts, hop, eval_eq_of_holds hx] at hhalts
    split at hhalts
    · rename_i m hload
      obtain ⟨rfl, rfl⟩ := Prod.mk.inj (Option.some.inj hhalts)
      exact ⟨hstopped, hload⟩
    · cases hhalts
  · rintro i s' hop rfl ⟨y, hgives, hvar⟩
    simp only [gives, hop, eval_eq_of_holds hx] at hgives
    split at hgives
    · rename_i z m hload
      obtain ⟨rfl, rfl⟩ := Prod.mk.inj (Option.some.inj hgives)
      exact ⟨z, hload, holds_of_passes ht (hvar (by simp [hasResult, hop]))⟩
    · cases hgives

theorem tries_store {a : BitVec Ty.i64.bits} (hx : x.Holds r.values Ty.i64 a) (hv : v.ty = t) :
    r.Tries (store x v) s (r.Stopped (.storeFault ⟨a⟩) ∧
        r.world.store s t.accessBytes ⟨a⟩ (v.eval r.values) = (false, r.final))
      fun _ s' => r.world.store s t.accessBytes ⟨a⟩ (v.eval r.values) = (true, s') := by
  refine tries_void (tries_emit rfl ?_ ?_)
  · intro i cause hop _ hhalts hstopped
    simp only [halts, hop, eval_eq_of_holds hx, hv] at hhalts
    split at hhalts
    · rename_i m hstore
      obtain ⟨rfl, rfl⟩ := Prod.mk.inj (Option.some.inj hhalts)
      exact ⟨hstopped, hstore⟩
    · cases hhalts
  · rintro i s' hop _ ⟨y, hgives, -⟩
    simp only [gives, hop, eval_eq_of_holds hx, hv] at hgives
    split at hgives
    · rename_i m hstore
      obtain ⟨-, rfl⟩ := Prod.mk.inj (Option.some.inj hgives)
      exact hstore
    · cases hgives

section Registers

theorem Stands.binding {b : Builder} (hb : r.Stands b s) (reg : Int) :
    b.space.binding reg = r.space.binding reg := by
  simp only [Workspace.binding, hb.bindings]

variable {reg : Int} (hreg : (r.space.binding reg).isBound = true)
include hreg

theorem yields_read (ht : (r.space.binding reg).ty.IsScalar) :
    r.Yields (read reg (r.space.binding reg).ty) s (r.space.binding reg).ty
      ((r.space.binding reg).ty.low (r.world.register r.space s reg)) := by
  intro b hb he hbegins
  have heq : read reg (r.space.binding reg).ty b = emit (.read reg) (r.space.binding reg).ty b := by
    simp [Builder.read, hb.binding, hreg]
  rw [heq] at he hbegins ⊢
  refine yields_emit ht (fun i hop _ => by simp [hasResult, hop]) _ ?_
    b hb he hbegins
  intro i hop _
  simp [gives, hop, hreg, World.register]

theorem does_write (hv : v.ty = (r.space.binding reg).ty) :
    r.Does (write reg v) s fun _ s' => s' = r.world.writeCell s (r.space.binding reg).cell
      (r.space.binding reg).ty.accessBytes (v.eval r.values) := by
  intro b hb he hbegins
  have heq : write reg v b = emit_ (.write reg v) b := by
    simp [Builder.write, hb.binding, hreg, hv]
  rw [heq] at he hbegins ⊢
  refine does_emit_ (fun i hop _ => ?_) ?_ b hb he hbegins
  · simp only [gives, hop, hreg, if_true]
    exact ⟨_, rfl⟩
  rintro i s' hop ⟨y, hgives, -⟩
  simp only [gives, hop, hreg, if_true, Option.some.injEq, Prod.mk.injEq] at hgives
  exact hgives.2.symm

end Registers

theorem yields_read_unbound {reg : Int} (hreg : (r.space.binding reg).isBound = false)
    (ht : t.IsScalar) : r.Yields (read reg t) s t 0 := by
  intro b hb he hbegins
  have heq : read reg t b = (Value.lit t 0, b) := by
    simp [Builder.read, hb.binding, hreg]
  rw [heq]
  have hlit := Value.holds_lit r.values ht 0
  rw [t.low_zero] at hlit
  exact ⟨s, ⟨rfl, hlit⟩, hb⟩

theorem does_call {f : Func} {impl : List UInt64 → σ → UInt64 × σ} (hf : r.world.call f = some impl)
    (params : List Value) : r.Does (call (some f) Ty.void params) s fun _ s' =>
      s' = (impl (params.map (Value.eval r.values)) s).2 := by
  intro b hb he hbegins
  rcases call_cases (some f) Ty.void params
      (Keeps.error_eq_none (call (some f) Ty.void params) he) with ⟨-, heq⟩ | ⟨-, heq⟩
  · rw [heq] at he
    cases he
  · have hparams : r.Stands (b.withParams params.length) s := ⟨hb.bindings, hb.place⟩
    rw [heq] at he hbegins ⊢
    have hemit : r.Does (emit (.call (some f) params) Ty.void) s fun _ s' =>
        s' = (impl (params.map (Value.eval r.values)) s).2 := by
      refine does_emit (fun i hop _ => ?_) ?_
      · simp only [gives, hop, Option.bind_some, hf, Option.map_some]
        exact ⟨_, rfl⟩
      rintro i s' hop - ⟨y, hgives, -⟩
      simp only [gives, hop, Option.bind_some, hf, Option.map_some, Option.some.injEq] at hgives
      rw [hgives]
    exact hemit _ hparams he hbegins

theorem after_exit : r.After exit s fun _ _ => r.outcome = .exited ∧ r.final = s := by
  intro b hb he hbegins
  obtain ⟨k, i, blk, rest, hop, -, -, -, -, -, hfaces⟩ := faces_emit (t := Ty.void) hb he hbegins
  rcases hfaces.cons_cases with ⟨-, ho, hs⟩ | ⟨cause, hhalts, -⟩ | ⟨s', hpass, -⟩ |
    ⟨-, c, t₀, t₁, -, hi, -⟩
  · exact ⟨ho, hs⟩
  · simp [halts, hop] at hhalts
  · have := hpass.isTerminator
    rw [isTerminator, hop] at this
    cases this
  · rw [hop] at hi
    cases hi

theorem Enters.stands {k : Nat} {b : Builder} (h : r.Enters k s) (he : b.error = none)
    (hbindings : b.space.bindings = r.space.bindings) {blk : Block}
    (hblk : b.graph.blocks[k]? = some blk) (hempty : blk.instrs = [])
    (hbegins : b.graph.Begins r.graph) : r.Stands (setBlock k b).2 s := by
  obtain ⟨all, hall, hfaces⟩ := h
  rw [setBlock_apply he (Array.getElem?_eq_some_iff.mp hblk).1]
  obtain ⟨rest, hrest⟩ := hbegins hblk
  cases hall.symm.trans hrest
  refine ⟨hbindings, k, blk, rest, rfl, hblk, hall, ?_⟩
  simpa [hempty] using hfaces

/-- Two empty blocks are filled one after the other, and the run enters one of them. -/
theorem Enters.either {n : Nat} {p : Prop} [Decidable p]
    (h : r.Enters (if p then n else n + 1) s) {b : Builder} (he : b.error = none)
    (hbindings : b.space.bindings = r.space.bindings) (hn : b.graph.blocks[n]? = some ⟨n, []⟩)
    (hn' : b.graph.blocks[n + 1]? = some ⟨(n + 1 : Nat), []⟩) {a a' : Build Unit} [Straight a]
    [Keeps a'] {post : Prop} (ha : ¬ p → r.After a s fun _ _ => post)
    (ha' : p → r.After a' s fun _ _ => post)
    (hend : ((setBlock (n + 1 : Nat) >>= fun _ => a >>= fun _ => setBlock n >>= fun _ => a') b).2.error
      = none)
    (hbegins : ((setBlock (n + 1 : Nat) >>= fun _ => a >>= fun _ => setBlock n >>= fun _ => a')
      b).2.graph.Begins r.graph) :
    post := by
  have hset := setBlock_apply he (Array.getElem?_eq_some_iff.mp hn').1
  simp only [bind_apply, hset] at hend hbegins
  set b₁ : Builder := { b with current := some (n + 1) } with hb₁
  have he₂ : (a b₁).2.error = none :=
    Keeps.error_eq_none (setBlock n) (Keeps.error_eq_none a' hend)
  have hbegins₂ : (a b₁).2.graph.Begins r.graph :=
    Graph.Begins.trans (Keeps.onward (a := setBlock n) _).begins
      (Graph.Begins.trans (Keeps.onward (a := a') _).begins hbegins)
  have honward := Keeps.onward (a := a) b₁
  by_cases hp : p
  · rw [if_pos hp] at h
    have hother : (a b₁).2.graph.blocks[n]? = some ⟨n, []⟩ := by
      rw [Straight.getElem?_of_ne (k := n + 1) rfl he₂ (Nat.ne_of_lt n.lt_succ_self), hn]
    have hstands := h.stands he₂ (honward.bindings.trans hbindings) hother rfl hbegins₂
    exact ha' hp _ hstands hend hbegins
  · rw [if_neg hp] at h
    have hstands := h.stands he hbindings hn' rfl (Graph.Begins.trans honward.begins hbegins₂)
    rw [hset] at hstands
    exact ha hp _ hstands he₂ hbegins₂

/-- A branch leads to one of the two blocks that are opened for it, both of them still empty. -/
theorem after_fork {c : Value} {x : BitVec Ty.i1.bits} (hc : c.Holds r.values Ty.i1 x)
    {g : Int → Int → Build β} [∀ n m, Keeps (g n m)] (hg : ∀ (n : Nat) b, b.graph.blocks[n]? = some ⟨n, []⟩ →
      b.graph.blocks[n + 1]? = some ⟨(n + 1 : Nat), []⟩ → b.error = none →
      b.space.bindings = r.space.bindings → r.Enters (if x = 0 then n else n + 1) s →
      (g n (n + 1 : Nat) b).2.error = none → (g n (n + 1 : Nat) b).2.graph.Begins r.graph →
      post (g n (n + 1 : Nat) b).1 (g n (n + 1 : Nat) b).2) :
    r.After (do
      let ifFalse ← newBlock
      let ifTrue ← newBlock
      br c ifFalse ifTrue
      g ifFalse ifTrue) s post := by
  intro b hb he hbegins
  obtain ⟨k, blk, rest, hk, hblk, hall, hfaces⟩ := hb.place
  have hlt : k < b.graph.blocks.size := (Array.getElem?_eq_some_iff.mp hblk).1
  have hb₀ : b.error = none := Keeps.error_eq_none _ he
  rw [bind_apply] at he hbegins ⊢
  have hb₁ := Keeps.error_eq_none _ he
  rcases newBlock_cases hb₀ with ⟨-, heq⟩ | ⟨-, heq⟩
  · rw [heq] at hb₁
    cases hb₁
  rw [heq] at he hbegins ⊢
  rw [bind_apply] at he hbegins ⊢
  have hb₂ := Keeps.error_eq_none _ he
  rcases newBlock_cases (b := b.withBlock) hb₀ with ⟨-, heq'⟩ | ⟨-, heq'⟩
  · rw [heq'] at hb₂
    cases hb₂
  rw [heq'] at he hbegins ⊢
  rw [withBlock_size, bind_apply] at he hbegins ⊢
  have hb₃ := Keeps.error_eq_none (g _ _) he
  set n := b.graph.blocks.size with hn
  set b₂ := b.withBlock.withBlock
  have hold {j : Nat} (hj : j < n) : b₂.graph.blocks[j]? = b.graph.blocks[j]? := by
    rw [withBlock_getElem? (by rw [withBlock_size]; omega), withBlock_getElem? hj]
  have hstands : r.Stands b₂ s := ⟨hb.bindings, k, blk, rest, hk, (hold hlt).trans hblk, hall, hfaces⟩
  have hsnd : (br c n (n + 1 : Nat) b₂).2 = (emit (.br c n (n + 1 : Nat)) Ty.void b₂).2 := rfl
  rw [hsnd] at he hbegins hb₃ ⊢
  have hbegins₃ : (emit (.br c n (n + 1 : Nat)) Ty.void b₂).2.graph.Begins r.graph :=
    Graph.Begins.trans (Keeps.onward (a := g n (n + 1 : Nat)) _).begins hbegins
  obtain ⟨k', i, blk', rest', hop, -, hemit, hk', -, -, hfaces'⟩ := faces_emit hstands hb₃ hbegins₃
  obtain rfl : k = k' := Option.some.inj (hk.symm.trans hk')
  rw [hemit] at he hbegins hb₃ ⊢
  have hother {j : Nat} (hj : j ≠ k) :
      (b₂.push k i).graph.blocks[j]? = b₂.graph.blocks[j]? := by
    simp only [Builder.push]
    rw [Array.getElem?_modify, if_neg (Ne.symm hj)]
  refine hg n _ ?_ ?_ hb₃ hb.bindings ?_ he hbegins
  · rw [hother (by omega), withBlock_getElem? (by rw [withBlock_size]; omega)]
    exact withBlock_getElem?_size b
  · rw [hother (by omega)]
    have := withBlock_getElem?_size b.withBlock
    rwa [withBlock_size] at this
  · have hcond : c.eval r.values &&& 1 = 0 ↔ x = 0 := by
      have hfits : c.eval r.values &&& 1 = c.eval r.values := hc.fits
      rw [hfits, ← hc.low, hc.fits.low_eq_zero_iff (by decide)]
    rcases hfaces'.cons_cases with ⟨hi, -⟩ | ⟨cause, hhalts, -⟩ | ⟨s', hpass, -⟩ |
      ⟨t, c', t₀, t₁, blk'', hi, ht, -, hblk'', hrest⟩
    · rw [hop] at hi
      cases hi
    · simp [halts, hop] at hhalts
    · have := hpass.isTerminator
      rw [isTerminator, hop] at this
      cases this
    · rw [hop] at hi
      cases hi
      have htarget : t = if x = 0 then n else n + 1 := by
        simp only [hcond] at ht
        split_ifs at ht ⊢ <;> omega
      rw [← htarget]
      exact ⟨blk'', hblk'', hrest⟩

end Course

end Dynarec
