import Dynarec.Proofs.Graph.Effects
import Dynarec.Proofs.Graph.Typing

/-!
# Runs of checked graphs do not go wrong

A run goes from place to place, a place being a block and an offset in it. `Run.Reaches` keeps the
places a run has gone through, so that "defined earlier in the same run" can be said. In front of each
place the checker has one table of definitions, and this table lists exactly the instructions at places
before it; those in dominating blocks are among the places the run has gone through. From there on a
run of a checked graph is safe by induction on its steps.
-/
namespace Dynarec

open Typing Run Dynarec.Graph List

variable {p q : Place} {past : List Place} {g : Graph} {i : Instr} {v ifTrue ifFalse : Int}
  {defs : Defs} {t : Ty} {w : Workspace} {f : Frame}

/-- A block of a graph and the number of instructions in front of the one meant. -/
structure Place where
  label : Nat
  offset : Nat
deriving DecidableEq

namespace Place

/-- In the order of labels, and of offsets inside a block. -/
def Before (p q : Place) : Prop :=
  p.label < q.label ∨ p.label = q.label ∧ p.offset < q.offset

instance (p q : Place) : Decidable (p.Before q) :=
  inferInstanceAs (Decidable (_ ∨ _))

theorem Before.trans {r : Place} (hpq : p.Before q) (hqr : q.Before r) : p.Before r := by
  unfold Before at *
  omega

theorem Before.irrefl (p : Place) : ¬ p.Before p := by
  unfold Before
  omega

theorem before_or_eq_or_before (p q : Place) : p.Before q ∨ p = q ∨ q.Before p := by
  obtain ⟨k, n⟩ := p
  obtain ⟨l, m⟩ := q
  simp only [Before, Place.mk.injEq]
  omega

def succ (p : Place) : Place :=
  ⟨p.label, p.offset + 1⟩

theorem before_succ : q.Before p.succ ↔ q.Before p ∨ q = p := by
  obtain ⟨k, n⟩ := p
  obtain ⟨l, m⟩ := q
  simp only [Before, succ, Place.mk.injEq]
  omega

/-- The blocks that were entered, if a run has gone through the places `past`. -/
def entered (past : List Place) : List Nat :=
  (past.filter fun p => p.offset = 0).map Place.label

/-- A run that only goes forward enters no block twice. -/
theorem entered_ascending (h : past.Pairwise Before) : (entered past).Pairwise (· < ·) := by
  unfold entered
  rw [pairwise_map]
  refine (h.filter _).imp_of_mem ?_
  intro p q hp hq hpq
  have hq0 : q.offset = 0 := by simpa using (mem_filter.mp hq).2
  unfold Before at hpq
  omega

end Place

namespace Graph

def instrAt? (g : Graph) (p : Place) : Option Instr :=
  (g.blocks[p.label]?).bind fun b => b.instrs[p.offset]?

theorem instrAt?_eq_some :
    g.instrAt? p = some i ↔ ∃ b, g.blocks[p.label]? = some b ∧ b.instrs[p.offset]? = some i := by
  simp [instrAt?, Option.bind_eq_some_iff]

/-- The instruction at `p` defines variable `v` with type `t`. -/
def DefinesAt (g : Graph) (p : Place) (v : Int) (t : Ty) : Prop :=
  ∃ i, g.instrAt? p = some i ∧ i.hasResult = true ∧ i.res = v ∧ i.ty = t

def places (g : Graph) : List Place :=
  (range g.blocks.size).flatMap fun k =>
    (range ((g.blocks[k]?).elim 0 fun b => b.instrs.length)).map fun n => ⟨k, n⟩

theorem mem_places (h : g.instrAt? p = some i) : p ∈ g.places := by
  obtain ⟨b, hb, hi⟩ := instrAt?_eq_some.mp h
  have hk : p.label < g.blocks.size := (Array.getElem?_eq_some_iff.mp hb).1
  have hn : p.offset < b.instrs.length := (List.getElem?_eq_some_iff.mp hi).1
  simp only [places, mem_flatMap, mem_range, mem_map]
  exact ⟨p.label, hk, p.offset, by simpa [hb] using hn, rfl⟩

theorem length_places (g : Graph) : g.places.length = g.instrCount := by
  have hblocks : (range g.blocks.size).map
      (fun k => (g.blocks[k]?).elim 0 fun b => b.instrs.length) =
        g.blocks.toList.map fun b => b.instrs.length := by
    refine ext_getElem (by simp) fun k h₁ h₂ => ?_
    have hk : k < g.blocks.size := by simpa using h₁
    simp [hk]
  rw [places, length_flatMap, instrCount, ← hblocks]
  simp [sum]

/-- A list of places of the graph in their order is no longer than the graph. -/
theorem length_le_instrCount (hpast : past.Pairwise Place.Before)
    (hin : ∀ p ∈ past, ∃ i, g.instrAt? p = some i) : past.length ≤ g.instrCount := by
  have hnodup : past.Nodup := by
    refine hpast.imp ?_
    rintro p q hpq rfl
    exact Place.Before.irrefl p hpq
  have hsub : past ⊆ g.places := by
    intro p hp
    obtain ⟨i, hi⟩ := hin p hp
    exact mem_places hi
  calc past.length ≤ g.places.length := (hnodup.subperm hsub).length_le
    _ = g.instrCount := g.length_places

namespace Typed

variable (T : g.Typed)

/-- `defs` is the table of the checker in front of place `p`: it lists what is defined before `p`, and
the checker goes on with it to the end of the block. -/
structure Stands (p : Place) (defs : Defs) : Prop where
  rest : ∃ b, g.blocks[p.label]? = some b ∧
    checkInstrs T.idoms p.label defs (b.instrs.drop p.offset) = .ok (T.defs (p.label + 1))
  size : defs.size = g.varCount.toNat
  listed : ∀ {v d : Nat} {t : Ty}, defs[v]? = some (some (d, t)) ↔
    ∃ q : Place, q.label = d ∧ q.Before p ∧ g.DefinesAt q v t

/-- The table lists what instructions define, the instruction at the place itself included. -/
theorem Stands.listed_succ {T : g.Typed} {mid : Defs} (h : T.Stands p defs)
    (hi : g.instrAt? p = some i) (hdef : define defs p.label i = .ok mid) {v d : Nat} :
    mid[v]? = some (some (d, t)) ↔
      ∃ q : Place, q.label = d ∧ q.Before p.succ ∧ g.DefinesAt q v t := by
  have hat : g.DefinesAt p v t ↔ i.hasResult = true ∧ i.res = v ∧ i.ty = t := by
    simp [DefinesAt, hi]
  have hsplit : (∃ q : Place, q.label = d ∧ q.Before p.succ ∧ g.DefinesAt q v t) ↔
      defs[v]? = some (some (d, t)) ∨
        p.label = d ∧ i.hasResult = true ∧ i.res = v ∧ i.ty = t := by
    rw [h.listed, ← hat]
    constructor
    · rintro ⟨q, hd, hq, hqv⟩
      rcases Place.before_succ.mp hq with hq | rfl
      · exact Or.inl ⟨q, hd, hq, hqv⟩
      · exact Or.inr ⟨hd, hqv⟩
    · rintro (⟨q, hd, hq, hqv⟩ | ⟨hd, hpv⟩)
      · exact ⟨q, hd, Place.before_succ.mpr (Or.inl hq), hqv⟩
      · exact ⟨p, hd, Place.before_succ.mpr (Or.inr rfl), hpv⟩
  rw [hsplit]
  rcases define_ok hdef with ⟨hno, rfl⟩ | ⟨hyes, -, hnat, hnone, rfl⟩
  · simp [hno]
  · have hlt : i.res.toNat < defs.size := (Array.getElem?_eq_some_iff.mp hnone).1
    rw [Array.getElem?_setIfInBounds]
    by_cases he : i.res.toNat = v
    · subst he
      rw [hnone]
      simp [hlt, hyes, ← hnat]
    · have hne : i.res ≠ (v : Int) := by omega
      simp [he, hne]

/-- One instruction on: it passes its checks, and the table that it leaves stands behind it, or in front
of the next block if it was the last. -/
theorem Stands.next {T : g.Typed} (h : T.Stands p defs) (hi : g.instrAt? p = some i) :
    ∃ mid, checkInstr T.idoms p.label defs i = .ok mid ∧
      T.Stands p.succ mid ∧ (i.isTerminator = true ↔ g.instrAt? p.succ = none) := by
  obtain ⟨b, hb, hcheck⟩ := h.rest
  obtain ⟨b', hb', hbi⟩ := instrAt?_eq_some.mp hi
  cases hb.symm.trans hb'
  obtain ⟨hn, hbn⟩ := List.getElem?_eq_some_iff.mp hbi
  rw [List.drop_eq_getElem_cons hn, hbn] at hcheck
  obtain ⟨mid, hplace, hinstr, hrest⟩ := checkInstrs_cons_ok.mp hcheck
  have hdef := (checkInstr_ok.mp hinstr).2.2
  refine ⟨mid, hinstr, ⟨⟨b, hb, hrest⟩, ?_, h.listed_succ hi hdef⟩, ?_⟩
  · rw [(define_extends hdef).size, h.size]
  · rw [hplace, List.isEmpty_iff, List.drop_eq_nil_iff]
    simp [instrAt?, hb, Place.succ]

theorem Stands.offset {T : g.Typed} {k : Nat} (h : T.Stands ⟨k, 0⟩ defs) {b : Block}
    (hb : g.blocks[k]? = some b) {n : Nat} (hn : n ≤ b.instrs.length) :
    ∃ defs, T.Stands ⟨k, n⟩ defs := by
  induction n with
  | zero => exact ⟨defs, h⟩
  | succ n ih =>
    obtain ⟨mid, hmid⟩ := ih (by omega)
    have hlt : n < b.instrs.length := by omega
    have hi : g.instrAt? ⟨k, n⟩ = some b.instrs[n] :=
      instrAt?_eq_some.mpr ⟨b, hb, getElem?_eq_getElem hlt⟩
    obtain ⟨next, -, hnext, -⟩ := hmid.next hi
    exact ⟨next, hnext⟩

theorem Stands.start {k : Nat} (hk : k < g.blocks.size) : T.Stands ⟨k, 0⟩ (T.defs k) := by
  obtain ⟨-, -, hcheck⟩ := T.block (Array.getElem?_eq_getElem hk)
  refine ⟨⟨_, Array.getElem?_eq_getElem hk, by simpa using hcheck⟩, T.size_defs hk.le, ?_⟩
  intro v d t
  cases k with
  | zero =>
    have hnone : (T.defs 0)[v]? ≠ some (some (d, t)) := by
      rw [T.start, Array.getElem?_replicate]
      split_ifs <;> simp
    refine iff_of_false hnone ?_
    rintro ⟨q, -, hq, -⟩
    simp [Place.Before] at hq
  | succ k =>
    -- the table of the block before, at its end, is the table here
    have hk' : k < g.blocks.size := by omega
    obtain ⟨b, hb⟩ : ∃ b, g.blocks[k]? = some b := ⟨_, Array.getElem?_eq_getElem hk'⟩
    obtain ⟨last, hlast⟩ := (Stands.start hk').offset hb le_rfl
    obtain ⟨b', hb', hrest⟩ := hlast.rest
    cases hb.symm.trans hb'
    rw [drop_length, checkInstrs, Except.ok.injEq] at hrest
    rw [← hrest, hlast.listed]
    refine exists_congr fun q => and_congr_right fun _ => and_congr_left fun hq => ?_
    obtain ⟨i, hi, -⟩ := hq
    obtain ⟨bq, hbq, hin⟩ := instrAt?_eq_some.mp hi
    have hlt := (List.getElem?_eq_some_iff.mp hin).1
    simp only [Place.Before]
    constructor
    · omega
    · rintro (hlt' | ⟨-, hno⟩)
      · by_cases hqk : q.label = k
        · rw [hqk, hb] at hbq
          cases hbq
          exact Or.inr ⟨hqk, hlt⟩
        · exact Or.inl (by omega)
      · omega

/-- Every place with an instruction has its table. -/
theorem exists_stands (hi : g.instrAt? p = some i) : ∃ defs, T.Stands p defs := by
  obtain ⟨b, hb, hbi⟩ := instrAt?_eq_some.mp hi
  have hk : p.label < g.blocks.size := (Array.getElem?_eq_some_iff.mp hb).1
  exact (Stands.start T hk).offset hb (List.getElem?_eq_some_iff.mp hbi).1.le

/-- What the definition of a variable has passed: its number is in range and nothing before it defines
the same variable. -/
theorem defines_fresh (T : g.Typed) (h : g.DefinesAt p v t) :
    t.IsScalar ∧ v = (v.toNat : Int) ∧ v.toNat < g.varCount.toNat ∧
      ∀ {q u}, q.Before p → ¬ g.DefinesAt q v u := by
  obtain ⟨i, hi, hyes, rfl, rfl⟩ := h
  obtain ⟨defs, hdefs⟩ := T.exists_stands hi
  obtain ⟨mid, hmid, -, -⟩ := hdefs.next hi
  obtain ⟨hscalar, hnat, hnone, -⟩ := define_of_result (checkInstr_ok.mp hmid).2.2 hyes
  have hlt := (Array.getElem?_eq_some_iff.mp hnone).1
  refine ⟨hscalar, hnat, hdefs.size ▸ hlt, ?_⟩
  intro q u hq hqv
  rw [hnat] at hqv
  rw [hdefs.listed.mpr ⟨q, rfl, hq, hqv⟩] at hnone
  simp at hnone

theorem checkShape_ok (T : g.Typed) (hi : g.instrAt? p = some i) : checkShape i = .ok () := by
  obtain ⟨defs, hdefs⟩ := T.exists_stands hi
  obtain ⟨mid, hmid, -, -⟩ := hdefs.next hi
  exact (checkInstr_ok.mp hmid).2.1

theorem defines_unique (T : g.Typed) {u : Ty} (hp : g.DefinesAt p v t) (hq : g.DefinesAt q v u) :
    p = q := by
  rcases Place.before_or_eq_or_before p q with hpq | rfl | hqp
  · exact absurd hp ((T.defines_fresh hq).2.2.2 hpq)
  · rfl
  · exact absurd hq ((T.defines_fresh hp).2.2.2 hqp)

/-- A variable that an instruction reads is defined before it, in a block that dominates it. -/
theorem exists_def (T : g.Typed) (hi : g.instrAt? p = some i) (hv : .var t v ∈ i.op.operands) :
    ∃ q : Place, q.Before p ∧ T.idoms.dominates q.label p.label = true ∧ g.DefinesAt q v t := by
  obtain ⟨defs, hdefs⟩ := T.exists_stands hi
  obtain ⟨mid, hmid, -, -⟩ := hdefs.next hi
  obtain ⟨-, d, hentry, hdom⟩ := (checkInstr_ok.mp hmid).1 _ hv
  obtain ⟨hnat, hlisted⟩ := entryAt?_eq_some hentry
  obtain ⟨q, rfl, hq, hqv⟩ := hdefs.listed.mp hlisted
  rw [← hnat] at hqv
  exact ⟨q, hq, hdom, hqv⟩

theorem exists_first (T : g.Typed) {k : Nat} (hk : k < g.blocks.size) :
    ∃ i, g.instrAt? ⟨k, 0⟩ = some i := by
  have hb := Array.getElem?_eq_getElem hk
  have hlen : 0 < g.blocks[k].instrs.length := length_pos_iff.mpr (T.block hb).2.1
  exact ⟨_, instrAt?_eq_some.mpr ⟨_, hb, getElem?_eq_getElem hlen⟩⟩

theorem Stands.tail {T : g.Typed} (h : T.Stands p defs) (hi : g.instrAt? p = some i)
    (hterm : i.isTerminator = true) :
    ∃ b, g.blocks[p.label]? = some b ∧ b.tail? = some i ∧ p.offset + 1 = b.instrs.length := by
  obtain ⟨-, -, -, hlast⟩ := h.next hi
  have hnone := hlast.mp hterm
  obtain ⟨b, hb, hbi⟩ := instrAt?_eq_some.mp hi
  have hlt := (List.getElem?_eq_some_iff.mp hbi).1
  have hle : b.instrs.length ≤ p.offset + 1 := by
    simpa [instrAt?, Place.succ, hb] using hnone
  have hlen : p.offset + 1 = b.instrs.length := by omega
  refine ⟨b, hb, ?_, hlen⟩
  rw [Block.tail?, List.getLast?_eq_getElem?, ← hlen]
  exact hbi

theorem Stands.edge {T : g.Typed} (h : T.Stands p defs) (hi : g.instrAt? p = some i) {c : Value}
    {t : Int} (hop : i.op = .br c ifFalse ifTrue) (ht : t = ifFalse ∨ t = ifTrue) :
    g.Edge p.label t := by
  have hterm : i.isTerminator = true := by simp [Instr.isTerminator, hop, Op.isTerminator]
  obtain ⟨b, hb, htail, -⟩ := h.tail hi hterm
  exact ⟨b, i, c, ifFalse, ifTrue, hb, htail, hop, ht⟩

end Typed

end Graph

/-- The failures that a checked graph can have: they depend on values, bindings, the bus and the
implementations of calls. -/
inductive RunCause.Permitted : RunCause → Prop
  | assertion : Permitted .assertion
  | noImplementation : Permitted .noImplementation
  | loadFault (addr : UInt64) : Permitted (.loadFault addr)
  | storeFault (addr : UInt64) : Permitted (.storeFault addr)
  | unboundRead : Permitted .unboundRead
  | unboundWrite : Permitted .unboundWrite

/-- The run exits, or instruction `i` fails in a permitted way. -/
inductive Outcome.Permitted (i : Instr) : Outcome → Prop
  | exited (h : i.op = .exit) : Permitted i .exited
  | failed {cause} (h : cause.Permitted) : Permitted i (.failed (.at i cause))

namespace Run

variable {σ : Type}

/-- Where a run is. -/
structure Point (σ : Type) where
  place : Place
  frame : Frame
  state : σ

/-- What the run does at a point with instruction `i`. -/
def Point.step (W : World σ) (w : Workspace) (g : Graph) (c : Point σ) (i : Instr) : Step σ :=
  Run.step W w g.blocks.size c.place.label c.frame c.state i

/-- The run of `g` from state `s` goes through the places `past`, the oldest first, and comes to a
point. -/
inductive Reaches (W : World σ) (w : Workspace) (g : Graph) (s : σ) : List Place → Point σ → Prop
  | start : Reaches W w g s [] ⟨⟨0, 0⟩, { vars := Array.replicate g.varCount.toNat 0 }, s⟩
  | next {past c i f m} (h : Reaches W w g s past c) (hi : g.instrAt? c.place = some i)
      (hstep : c.step W w g i = .next f m) : Reaches W w g s (past ++ [c.place])
      ⟨c.place.succ, f, m⟩
  | jump {past c i t f m} (h : Reaches W w g s past c) (hi : g.instrAt? c.place = some i)
      (hstep : c.step W w g i = .jump t f m) : Reaches W w g s (past ++ [c.place]) ⟨⟨t, 0⟩, f, m⟩

section Steps

variable {W : World σ} {count label : Nat} {s : σ}

/-- The frame behind an instruction: its variable is set, cut to its type, and no other. -/
def Assigned (i : Instr) (f f' : Frame) : Prop :=
  i.hasResult = false ∧ f'.vars = f.vars ∨
    ∃ x, i.hasResult = true ∧ f'.vars = f.vars.setIfInBounds i.res.toNat (x &&& i.ty.mask)

/-- The three ways in which an instruction can go well. -/
inductive Proceeds (i : Instr) (f : Frame) (s : σ) : Step σ → Prop
  | next {f' s'} (hterm : i.isTerminator = false) (h : Assigned i f f') : Proceeds i f s
      (.next f' s')
  | jump {c ifFalse ifTrue t} (hop : i.op = .br c ifFalse ifTrue) (ht : t = ifFalse ∨ t = ifTrue) :
      Proceeds i f s (.jump t.toNat f s)
  | stop {o s'} (h : o.Permitted i) : Proceeds i f s (.stop o s')

/-- What the type checker provides for one instruction. -/
structure Ready (count label : Nat) (f : Frame) (i : Instr) : Prop where
  operands : ∀ v ∈ i.op.operands, ∃ x, f.value? v = some x
  result : i.hasResult = true → i.res = (i.res.toNat : Int) ∧ i.res.toNat < f.vars.size
  known : ∀ tag, i.op ≠ .unknown tag
  forward : ∀ {c ifFalse ifTrue t}, i.op = .br c ifFalse ifTrue → t = ifFalse ∨ t = ifTrue →
    (label : Int) < t ∧ t < count

theorem proceeds_settle {g : Frame} (hvars : g.vars = f.vars) (hterm : i.isTerminator = false)
    (hres : i.hasResult = true → i.res = (i.res.toNat : Int) ∧ i.res.toNat < f.vars.size) (s' : σ)
    (x : UInt64) : Proceeds i f s (settle i g s' x) := by
  unfold settle Frame.assign
  by_cases hyes : i.hasResult = true
  · obtain ⟨hnat, hlt⟩ := hres hyes
    have hin : ¬ (i.res < 0 ∨ (g.vars.size : Int) ≤ i.res) := by
      rw [hvars]
      omega
    simp only [hyes, Bool.not_true, Bool.false_eq_true, if_false, hin]
    exact .next hterm (Or.inr ⟨x, hyes, by rw [hvars]⟩)
  · have hno : i.hasResult = false := by simpa using hyes
    simp only [hno, Bool.not_false, if_true]
    exact .next hterm (Or.inl ⟨hno, hvars⟩)

theorem permitted_of_halts {ρ : Valuation} {cause : RunCause} {s' : σ}
    (h : Trace.halts W w ρ s i = some (cause, s')) (hknown : ∀ tag, i.op ≠ .unknown tag) :
    cause.Permitted := by
  unfold Trace.halts at h
  repeat' split at h
  all_goals cases h
  all_goals first | constructor | exact absurd ‹_› (hknown _)

/-- An instruction that is ready goes on, jumps along one of its edges or stops in a permitted way. -/
theorem Ready.proceeds (h : Ready count label f i) : Proceeds i f s (step W w count label f s i) := by
  obtain ⟨ρ, hρ⟩ := Trace.exists_reads f i.op.operands
  cases Trace.acts_step W w count label f s i with
  | exit hop hr => exact hr ▸ .stop (.exited hop)
  | @branch c ifFalse ifTrue x hop _ hr =>
    have hside : (if x &&& 1 = 0 then ifFalse else ifTrue) = ifFalse ∨
        (if x &&& 1 = 0 then ifFalse else ifTrue) = ifTrue := by
      split_ifs
      · exact Or.inl rfl
      · exact Or.inr rfl
    obtain ⟨hlow, hhigh⟩ := h.forward hop hside
    rw [hr, jump, if_neg (by omega)]
    exact .jump hop hside
  | settles x m hgives hr =>
    exact hr ▸ proceeds_settle rfl (Trace.isTerminator_of_gives (hgives hρ)) h.result m x
  | inside g x hin hvars hr => exact hr ▸ proceeds_settle hvars hin.isTerminator h.result s x
  | halts cause m hhalts hr => exact hr ▸ .stop (.failed (permitted_of_halts (hhalts hρ) h.known))
  | aborts hno => exact absurd h.operands hno

end Steps

/-- What holds wherever a run of a checked graph is: the definitions in front of the place that lie in
dominating blocks have been gone through, and all variables fit their types. -/
structure Sane {g : Graph} (T : g.Typed) (past : List Place) (c : Point σ) : Prop where
  stands : ∃ defs, T.Stands c.place defs
  instr : ∃ i, g.instrAt? c.place = some i
  size : c.frame.vars.size = g.varCount.toNat
  inside : ∀ p ∈ past, ∃ i, g.instrAt? p = some i
  ascending : past.Pairwise Place.Before ∧ ∀ p ∈ past, p.Before c.place
  passed : ∀ {q v t}, q.Before c.place → T.idoms.dominates q.label c.place.label = true →
    g.DefinesAt q v t → q ∈ past
  fits : ∀ {q v t}, g.DefinesAt q v t → ∃ x, entryAt? c.frame.vars v = some x ∧ t.Fits x

section Invariant

variable {W : World σ} {T : g.Typed} {c : Point σ}

theorem sane_start (T : g.Typed) (hne : 0 < g.blocks.size) (s : σ) :
    Sane T [] ⟨⟨0, 0⟩, { vars := Array.replicate g.varCount.toNat 0 }, s⟩ where
  stands := ⟨_, Typed.Stands.start T hne⟩
  instr := T.exists_first hne
  size := Array.size_replicate
  inside := by simp
  ascending := by simp
  passed hq := by simp [Place.Before] at hq
  fits {q v t} hq := by
    obtain ⟨-, hnat, hlt, -⟩ := T.defines_fresh hq
    refine ⟨0, ?_, t.fits_zero⟩
    rw [hnat, entryAt?_natCast, Array.getElem?_replicate, if_pos hlt]

/-- A variable that an instruction reads has been defined on the way, with the type it is read at. -/
theorem Sane.defined (h : Sane T past c) (hi : g.instrAt? c.place = some i)
    (hv : .var t v ∈ i.op.operands) : ∃ p ∈ past, g.DefinesAt p v t := by
  obtain ⟨q, hq, hdom, hqv⟩ := T.exists_def hi hv
  exact ⟨q, h.passed hq hdom hqv, hqv⟩

theorem Sane.ready (h : Sane T past c) (hi : g.instrAt? c.place = some i) :
    Ready g.blocks.size c.place.label c.frame i := by
  obtain ⟨defs, hdefs⟩ := h.stands
  refine ⟨?_, ?_, ?_, ?_⟩
  · intro v hv
    cases v with
    | const t x => exact ⟨x, rfl⟩
    | var t id =>
      obtain ⟨p, -, hp⟩ := h.defined hi hv
      obtain ⟨x, hx, -⟩ := h.fits hp
      exact ⟨x, hx⟩
  · intro hyes
    obtain ⟨-, hnat, hlt, -⟩ := T.defines_fresh ⟨i, hi, hyes, rfl, rfl⟩
    exact ⟨hnat, h.size ▸ hlt⟩
  · intro tag hop
    have hshape := T.checkShape_ok hi
    simp [checkShape, hop] at hshape
  · intro cond ifFalse ifTrue t hop ht
    exact dominators_forward T.dominators (hdefs.edge hi hop ht)

theorem Sane.fits_assigned (h : Sane T past c) (hi : g.instrAt? c.place = some i)
    (hf : Assigned i c.frame f) (hq : g.DefinesAt q v t) :
    ∃ x, entryAt? f.vars v = some x ∧ t.Fits x := by
  obtain ⟨y, hy, hfits⟩ := h.fits hq
  rcases hf with ⟨-, hvars⟩ | ⟨x, hyes, hvars⟩
  · exact ⟨y, hvars ▸ hy, hfits⟩
  · obtain ⟨hnat, hyv⟩ := entryAt?_eq_some hy
    have hlt := (Array.getElem?_eq_some_iff.mp hyv).1
    have hself : g.DefinesAt c.place i.res i.ty := ⟨i, hi, hyes, rfl, rfl⟩
    rw [hvars, hnat, entryAt?_natCast, Array.getElem?_setIfInBounds]
    by_cases he : i.res.toNat = v.toNat
    · -- only the instruction itself defines the variable it sets, so the types agree
      have hres : i.res = v := by
        have := (T.defines_fresh hself).2.1
        omega
      subst hres
      obtain rfl := T.defines_unique hself hq
      obtain ⟨j, hj, -, -, rfl⟩ := hq
      cases hi.symm.trans hj
      exact ⟨x &&& i.ty.mask, by simp [hlt], i.ty.fits_and_mask x⟩
    · exact ⟨y, by rw [if_neg he, hyv], hfits⟩

theorem Sane.extend (h : Sane T past c) (hq : c.place.Before q) :
    (past ++ [c.place]).Pairwise Place.Before ∧ ∀ p ∈ past ++ [c.place], p.Before q := by
  obtain ⟨hpast, hbefore⟩ := h.ascending
  refine ⟨pairwise_append.mpr ⟨hpast, pairwise_singleton _ _, by simpa using hbefore⟩, ?_⟩
  intro p hp
  rcases mem_append.mp hp with hp | hp
  · exact (hbefore p hp).trans hq
  · rwa [mem_singleton.mp hp]

theorem Sane.inside_extend (h : Sane T past c) :
    ∀ p ∈ past ++ [c.place], ∃ i, g.instrAt? p = some i := by
  intro p hp
  rcases mem_append.mp hp with hp | hp
  · exact h.inside p hp
  · rw [mem_singleton.mp hp]
    exact h.instr

theorem Sane.next (h : Sane T past c) (hi : g.instrAt? c.place = some i)
    (hterm : i.isTerminator = false) (hf : Assigned i c.frame f) (m : σ) :
    Sane T (past ++ [c.place]) ⟨c.place.succ, f, m⟩ := by
  obtain ⟨defs, hdefs⟩ := h.stands
  obtain ⟨mid, -, hmid, hlast⟩ := hdefs.next hi
  refine ⟨⟨mid, hmid⟩, ?_, ?_, h.inside_extend, h.extend (Place.before_succ.mpr (Or.inr rfl)), ?_,
    fun hq => h.fits_assigned hi hf hq⟩
  · rw [← Option.ne_none_iff_exists']
    intro hnone
    simp [hlast.mpr hnone] at hterm
  · rcases hf with ⟨-, hvars⟩ | ⟨x, -, hvars⟩
    · rw [hvars, h.size]
    · rw [hvars, Array.size_setIfInBounds, h.size]
  · intro q v t hq hdom hqv
    rcases Place.before_succ.mp hq with hq | rfl
    · exact mem_append_left _ (h.passed hq hdom hqv)
    · simp

theorem Sane.jump (h : Sane T past c) (hi : g.instrAt? c.place = some i) {cond : Value} {t : Int}
    (hop : i.op = .br cond ifFalse ifTrue) (ht : t = ifFalse ∨ t = ifTrue) :
    Sane T (past ++ [c.place]) ⟨⟨t.toNat, 0⟩, c.frame, c.state⟩ := by
  obtain ⟨defs, hdefs⟩ := h.stands
  have hedge := hdefs.edge hi hop ht
  obtain ⟨hlow, hhigh⟩ := dominators_forward T.dominators hedge
  have hk : t.toNat < g.blocks.size := by omega
  refine ⟨⟨_, Typed.Stands.start T hk⟩, T.exists_first hk, h.size, h.inside_extend,
    h.extend (Or.inl (by simp only; omega)), ?_, h.fits⟩
  intro q v u hq hdom hqv
  simp only [Place.Before, Nat.not_lt_zero, and_false, or_false] at hq
  -- what dominates the target without being it dominates the block that is left
  have hdom' : T.idoms.dominates q.label c.place.label = true := by
    rcases dominates_edge T.dominators hedge hdom with he | he
    · omega
    · exact he
  have hle := (Idoms.dominates_iff_above.mp hdom').le
  rcases Place.before_or_eq_or_before q c.place with hbefore | rfl | hafter
  · exact mem_append_left _ (h.passed hbefore hdom' hqv)
  · simp
  · -- nothing stands behind the branch in its block
    obtain ⟨j, hj, -⟩ := hqv
    obtain ⟨b, hb, -, hlen⟩ := hdefs.tail hi (by simp [Instr.isTerminator, hop, Op.isTerminator])
    obtain ⟨b', hb', hbj⟩ := instrAt?_eq_some.mp hj
    have hlabel : q.label = c.place.label := by
      unfold Place.Before at hafter
      omega
    rw [hlabel, hb] at hb'
    cases hb'
    have hlt := (List.getElem?_eq_some_iff.mp hbj).1
    unfold Place.Before at hafter
    omega

/-- The invariant holds along every run. -/
theorem Reaches.sane (T : g.Typed) (hne : 0 < g.blocks.size) {s : σ}
    (h : Reaches W w g s past c) : Sane T past c := by
  induction h with
  | start => exact sane_start T hne s
  | @next past c i f m _ hi hstep ih =>
    have hproceeds : Proceeds i c.frame c.state (c.step W w g i) := (ih.ready hi).proceeds
    rw [hstep] at hproceeds
    cases hproceeds with
    | next hterm hf => exact ih.next hi hterm hf m
  | @jump past c i t f m _ hi hstep ih =>
    have hproceeds : Proceeds i c.frame c.state (c.step W w g i) := (ih.ready hi).proceeds
    rw [hstep] at hproceeds
    cases hproceeds with
    | jump hop ht => exact ih.jump hi hop ht

end Invariant

/-- A run that has gone through `past` and is at `c` is safe there. -/
structure Safe (W : World σ) (w : Workspace) (g : Graph) (past : List Place) (c : Point σ) :
    Prop where
  /-- Places are gone through in their order, so no block is entered twice. -/
  ascending : (past ++ [c.place]).Pairwise Place.Before
  entered : (Place.entered (past ++ [c.place])).Nodup
  short : past.length < g.instrCount
  /-- Every variable has a content that is in the range of its type. -/
  range : ∀ {p v t}, g.DefinesAt p v t →
    ∃ x, entryAt? c.frame.vars v = some x ∧ x.toNat < 2 ^ t.bits
  /-- There is an instruction; what it reads has been assigned by the only instruction that defines it,
  and it goes on, jumps or stops in a permitted way. -/
  goes : ∃ i, g.instrAt? c.place = some i ∧
    (∀ {t v}, .var t v ∈ i.op.operands →
      ∃ p ∈ past, g.DefinesAt p v t ∧ ∀ {q u}, g.DefinesAt q v u → q = p) ∧
    Proceeds i c.frame c.state (c.step W w g i)

theorem Sane.safe {W : World σ} {T : g.Typed} {c : Point σ} (h : Sane T past c) :
    Safe W w g past c := by
  have hascending := (h.extend (Place.before_succ.mpr (Or.inr rfl))).1
  obtain ⟨i, hi⟩ := h.instr
  refine ⟨hascending, (Place.entered_ascending hascending).imp Nat.ne_of_lt, ?_, ?_, i, hi, ?_,
    (h.ready hi).proceeds⟩
  · have hle := length_le_instrCount hascending h.inside_extend
    rw [length_append, length_singleton] at hle
    omega
  · intro p v t hp
    obtain ⟨x, hx, hfits⟩ := h.fits hp
    exact ⟨x, hx, (Ty.fits_iff_lt (T.defines_fresh hp).1.bits_le x).mp hfits⟩
  · intro t v hv
    obtain ⟨p, hp, hpv⟩ := h.defined hi hv
    exact ⟨p, hp, hpv, fun hq => T.defines_unique hq hpv⟩

section Ends

variable {W : World σ} {s : σ}

/-- The rest of a block is gone through until an instruction does not just go on. -/
theorem Reaches.block
    (hinstr : ∀ {past c}, Reaches W w g s past c → ∃ i, g.instrAt? c.place = some i) {k n : Nat}
    {m : σ} (h : Reaches W w g s past ⟨⟨k, n⟩, f, m⟩) {b : Block} (hb : g.blocks[k]? = some b)
    {is : List Instr} (his : b.instrs.drop n = is) :
    ∃ past' c i, Reaches W w g s past' c ∧ c.place.label = k ∧ g.instrAt? c.place = some i ∧
      c.step W w g i = block W w g.blocks.size k f m is ∧
      ∀ f' m', block W w g.blocks.size k f m is ≠ .next f' m' := by
  induction is generalizing past n f m with
  | nil =>
    obtain ⟨i, hi⟩ := hinstr h
    have hend := drop_eq_nil_iff.mp his
    simp [instrAt?, hb, hend] at hi
  | cons i rest ih =>
    have hn : n < b.instrs.length := by
      by_contra hge
      rw [drop_eq_nil_iff.mpr (by omega)] at his
      cases his
    rw [drop_eq_getElem_cons hn, cons.injEq] at his
    have hi : g.instrAt? ⟨k, n⟩ = some i :=
      instrAt?_eq_some.mpr ⟨b, hb, by rw [getElem?_eq_getElem hn, his.1]⟩
    simp only [block]
    cases hstep : step W w g.blocks.size k f m i with
    | next f' m' => exact ih (.next h hi hstep) his.2
    | jump t f' m' | stop o m' => exact ⟨past, _, i, h, rfl, hi, hstep, by simp⟩

/-- A run whose points all have an instruction ends where an instruction stops it. -/
theorem Reaches.enter
    (hinstr : ∀ {past c}, Reaches W w g s past c → ∃ i, g.instrAt? c.place = some i)
    (hforward : ∀ {past c i t f m}, Reaches W w g s past c → g.instrAt? c.place = some i →
      c.step W w g i = .jump t f m → c.place.label < t) {k : Nat} {m : σ}
    (h : Reaches W w g s past ⟨⟨k, 0⟩, f, m⟩) :
    ∃ past' c i, Reaches W w g s past' c ∧ g.instrAt? c.place = some i ∧
      c.step W w g i = .stop (enter W w g k f m).1 (enter W w g k f m).2 := by
  fun_induction Run.enter W w g k f m generalizing past with
  | case1 k f m hk f' m' hblock =>
    obtain ⟨-, -, -, -, -, -, -, hne⟩ := h.block hinstr (Array.getElem?_eq_getElem hk) drop_zero
    exact absurd hblock (hne f' m')
  | case2 k f m hk t f' m' hblock hlt ih =>
    obtain ⟨past', c, i, hc, rfl, hi, hstep, -⟩ :=
      h.block hinstr (Array.getElem?_eq_getElem hk) drop_zero
    exact ih (.jump hc hi (hstep.trans hblock))
  | case3 k f m hk t f' m' hblock hlt =>
    obtain ⟨past', c, i, hc, rfl, hi, hstep, -⟩ :=
      h.block hinstr (Array.getElem?_eq_getElem hk) drop_zero
    exact absurd (hforward hc hi (hstep.trans hblock)) hlt
  | case4 k f m hk o m' hblock =>
    obtain ⟨past', c, i, hc, rfl, hi, hstep, -⟩ :=
      h.block hinstr (Array.getElem?_eq_getElem hk) drop_zero
    exact ⟨past', c, i, hc, hi, hstep.trans hblock⟩
  | case5 k f m hk =>
    obtain ⟨i, hi⟩ := hinstr h
    obtain ⟨b, hb, -⟩ := instrAt?_eq_some.mp hi
    exact absurd (Array.getElem?_eq_some_iff.mp hb).1 hk

end Ends

end Run

/-- A run of a checked graph ends where an instruction exits or fails in a permitted way. -/
theorem Graph.run_ends {σ : Type} (hg : g.typecheck = .accepted) (W : World σ) (w : Workspace)
    (s : σ) :
    ∃ past c i, Reaches W w g s past c ∧ g.instrAt? c.place = some i ∧
      c.step W w g i = .stop (g.run W w s).1 (g.run W w s).2 ∧ (g.run W w s).1.Permitted i := by
  obtain ⟨hne, hroom, ⟨T⟩⟩ := typecheck_eq_accepted.mp hg
  have hpos : 0 < g.blocks.size := Nat.pos_of_ne_zero hne
  have hsafe : ∀ {past c}, Reaches W w g s past c → Sane T past c :=
    fun h => h.sane T hpos
  have hrun : g.run W w s = Run.enter W w g 0 { vars := Array.replicate g.varCount.toNat 0 } s := by
    have hempty : g.blocks.isEmpty = false := by simpa using hne
    simp [run, hempty, hroom]
  have hforward : ∀ {past c i t f m}, Reaches W w g s past c → g.instrAt? c.place = some i →
      c.step W w g i = .jump t f m → c.place.label < t := by
    intro past c i t f m h hi hstep
    have hbefore := (hsafe (.jump h hi hstep)).ascending.2 c.place (by simp)
    simpa [Place.Before] using hbefore
  obtain ⟨past, c, i, hc, hi, hstep⟩ :=
    Reaches.start.enter (fun h => (hsafe h).instr) hforward
  rw [← hrun] at hstep
  have hproceeds : Run.Proceeds i c.frame c.state (c.step W w g i) := ((hsafe hc).ready hi).proceeds
  rw [hstep] at hproceeds
  refine ⟨past, c, i, hc, hi, hstep, ?_⟩
  cases hproceeds with
  | stop h => exact h

/-- A run of a checked graph is safe at every point, and it ends where an instruction exits or fails in
a permitted way. -/
theorem Graph.run_safe {σ : Type} {g : Graph} (hg : g.typecheck = .accepted) (W : World σ)
    (w : Workspace) (s : σ) :
    (∀ past c, Run.Reaches W w g s past c → Run.Safe W w g past c) ∧
      ∃ past c i, Run.Reaches W w g s past c ∧ g.instrAt? c.place = some i ∧
        c.step W w g i = .stop (g.run W w s).1 (g.run W w s).2 ∧ (g.run W w s).1.Permitted i := by
  obtain ⟨hne, -, ⟨T⟩⟩ := typecheck_eq_accepted.mp hg
  exact ⟨fun past c h => (h.sane T (Nat.pos_of_ne_zero hne)).safe, run_ends hg W w s⟩

/-- Raises one register to the other if it is the smaller one, and keeps its old content in a slot. -/
def Graph.raise : Graph where
  blocks := #[
    ⟨0, [⟨.read 0, .i64, 0⟩, ⟨.read 1, .i64, 1⟩,
      ⟨.icmp .ult (.var .i64 0) (.var .i64 1), .i1, 2⟩, ⟨.br (.var .i1 2) 2 1, .void, 0⟩]⟩,
    ⟨1, [⟨.write 0 (.var .i64 1), .void, 0⟩, ⟨.br (.const .i1 0) 2 2, .void, 0⟩]⟩,
    ⟨2, [⟨.alloc .i64, .i64, 3⟩, ⟨.store (.var .i64 3) (.var .i64 0), .void, 0⟩,
      ⟨.exit, .void, 0⟩]⟩]
  varCount := 4

theorem Graph.run_safe_raise :
    let w : Workspace :=
      { registers := 2, bindings := #[⟨.i64, "a", 0x1000⟩], capacity := ⟨3, 9, 0⟩, used := {} }
    let W := Host.world fun _ => none
    let c : Run.Point Host := ⟨⟨0, 0⟩, ⟨#[0, 0, 0, 0], #[]⟩, default⟩
    raise.typecheck = .accepted ∧ Run.Reaches W w raise default [] c ∧ Run.Safe W w raise [] c ∧
      ∃ i, (raise.run W w default).1.Permitted i := by
  intro w W c
  have hchecked : raise.typecheck = .accepted := by decide +kernel
  obtain ⟨hsafe, -, -, i, -, -, -, hpermitted⟩ := run_safe hchecked W w default
  exact ⟨hchecked, .start, hsafe [] _ .start, i, hpermitted⟩

end Dynarec
