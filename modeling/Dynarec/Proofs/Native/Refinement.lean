import Dynarec.Proofs.Native.Arrivals
import Dynarec.Proofs.Native.Simulation

/-!
# Native code does what the graph does

`Faces` says that the processor is in front of the code of a place. Along a run of a graph it follows
from place to place, over instructions, through branches and across the distances between blocks. It
enters by the prologue, and where the run exits it returns by the epilogue; where an assertion fails it
comes to an invalid instruction. There is no other end, so no division traps.
-/
namespace Dynarec

open Memory List

/-- A run of a graph on a flat memory: its outcome, and the memory and the log of the bus that it
leaves. -/
def Graph.trace (g : Graph) (w : Workspace) (m : Memory) : Outcome × Memory × List RunEvent :=
  g.run world.traced w (m, [])

namespace Trace

variable {σ : Type} {W : World σ} {w : Workspace} {ρ : Valuation} {i : Instr}
  {s m : σ × List RunEvent}

theorem log_prefix_of_gives {x : UInt64} (h : gives W.traced w ρ s i = some (x, m)) : s.2 <+: m.2 := by
  cases hop : i.op with
  | call target params =>
    simp only [gives, hop] at h
    obtain ⟨impl, himpl, h⟩ := Option.map_eq_some_iff.mp h
    obtain ⟨fn, -, hfn⟩ := Option.bind_eq_some_iff.mp himpl
    obtain ⟨_, -, rfl⟩ := Option.map_eq_some_iff.mp hfn
    cases h
    exact prefix_append _ _
  | load a =>
    rcases hload : W.load s.1 i.ty.accessBytes (a.eval ρ) with ⟨_ | y, m'⟩ <;>
      simp [gives, hop, World.traced, hload] at h
    simp [← h.2]
  | store a y =>
    rcases hstore : W.store s.1 y.ty.accessBytes (a.eval ρ) (y.eval ρ) with ⟨_ | _, m'⟩ <;>
      simp [gives, hop, World.traced, hstore] at h
    simp [← h.2]
  | assert | read | write =>
    simp only [gives, hop] at h
    split_ifs at h
    cases h
    exact prefix_refl _
  | exit | br | alloc | unknown => simp [gives, hop] at h
  | not | binop | icmp | cvt =>
    simp only [gives, hop] at h
    cases h
    exact prefix_refl _

end Trace

namespace Native

open Machine
open Run (Point Sane Reaches)

variable {c : Point Traced} {past : List Place}

section Faces

variable {K : Invocation} {f : Written} {entry a : UInt64} {s : State} {i : Dynarec.Instr}
  {p : Place}

/-- The code of a block from a place on, and how it ends. -/
def Invocation.codeFrom (K : Invocation) (p : Place) : List Item × BlockEnd :=
  Layout.blockCode K.workspace K.graph K.homes p.label (index K.graph p)
    (((K.graph.blocks[p.label]?.map Block.instrs).getD []).drop p.offset)

/-- The items of block `label` and of all that stands behind it. -/
def Written.Starts (f : Written) (label : Nat) (rest : List Item) : Prop :=
  ∃ front items back, f.blocks = front ++ ⟨label, items⟩ :: back ∧
    rest = items ++ back.flatMap Placed.items

/-- How control goes on behind the code of a block. -/
inductive Written.Onward (f : Written) : BlockEnd → List Item → Prop
  | closed {rest} : Onward f .closed rest
  | falls {next later rest} (hlater : ∀ t ∈ later, f.HasPlace (.block t))
      (hnext : f.Starts next rest) : Onward f (.falls next later) rest
  | jumps {next later rest} (hlater : ∀ t ∈ later, f.HasPlace (.block t))
      (hnext : f.HasPlace (.block next)) : Onward f (.falls next later)
      (.jump none (.block next) :: rest)

variable {rest : List Item}

theorem Written.Onward.later {next : Nat} {later : Option Nat}
    (h : f.Onward (.falls next later) rest) : ∀ t ∈ later, f.HasPlace (.block t) := by
  cases h with
  | falls hlater _ => exact hlater
  | jumps hlater _ => exact hlater

/-- Address `a` is in front of the code of a place. -/
def Faces (K : Invocation) (f : Written) (entry : UInt64) (p : Place) (a : UInt64) : Prop :=
  ∃ items fin rest, K.codeFrom p = (items, fin) ∧ f.At entry (items ++ rest) a ∧ f.Onward fin rest

/-- The blocks of a function have places. -/
def Linked (K : Invocation) (f : Written) : Prop :=
  Chained K.workspace K.graph K.homes (· ∈ f.blocks.map Placed.label) f.blocks

theorem faces_of_starts (hf : Linked K f) {label : Nat}
    (hstarts : f.Starts label rest) (hat : f.At entry rest a) : Faces K f entry ⟨label, 0⟩ a := by
  obtain ⟨front, items, back, hblocks, rfl⟩ := hstarts
  have hchain : Chained K.workspace K.graph K.homes (· ∈ f.blocks.map Placed.label)
      (front ++ ⟨label, items⟩ :: back) := hblocks ▸ hf
  cases hchain.continues with
  | closed hcode => exact ⟨items, _, _, hcode, hat, .closed⟩
  | @falls _ next later _ items' back hcode hlater =>
    refine ⟨items, _, _, hcode, hat, .falls hlater ⟨front ++ [⟨label, items⟩], items', back, ?_, ?_⟩⟩
    · rw [hblocks, append_assoc]
      rfl
    · rw [flatMap_cons]
  | @jumps _ next later items _ hcode hlater hnext =>
    rw [append_assoc] at hat
    exact ⟨items, _, _, hcode, hat, .jumps hlater hnext⟩

theorem faces_block (hf : Linked K f) {label : Nat} (hin : f.HasPlace (.block label)) :
    Faces K f entry ⟨label, 0⟩ (f.address entry (f.target (.block label))) := by
  obtain ⟨front, items, back, hblocks, -, hat⟩ := Written.at_block hin entry
  exact faces_of_starts hf ⟨front, items, back, hblocks, rfl⟩ hat

/-- Control goes on to the next block, if it has to by a jump. -/
theorem faces_onward (hf : Linked K f) (hload : Loaded f.code entry s) {next : Nat}
    {later : Option Nat} (hat : f.At entry rest a)
    (honward : f.Onward (.falls next later) rest) :
    ∃ n b, Cpu.run n ⟨s, a⟩ = .ok ⟨s, b⟩ ∧ Faces K f entry ⟨next, 0⟩ b := by
  cases honward with
  | falls _ hnext => exact ⟨0, a, rfl, faces_of_starts hf hnext hat⟩
  | jumps _ hnext =>
    exact ⟨1, _, run_of_step (hat.jump hload hnext) rfl, faces_block hf hnext⟩

variable (hi : K.graph.instrAt? p = some i)

include hi

theorem codeFrom_eq :
    ∃ rest, K.codeFrom p = Layout.blockCode K.workspace K.graph K.homes p.label (index K.graph p)
      (i :: rest) ∧ K.codeFrom p.succ = Layout.blockCode K.workspace K.graph K.homes p.label
        (index K.graph p + 1) rest := by
  obtain ⟨b, hb, hbi⟩ := Graph.instrAt?_eq_some.mp hi
  obtain ⟨hlt, hget⟩ := List.getElem?_eq_some_iff.mp hbi
  refine ⟨b.instrs.drop (p.offset + 1), ?_, ?_⟩
  · unfold Invocation.codeFrom
    rw [hb, Option.map_some, Option.getD_some, List.drop_eq_getElem_cons hlt, hget]
  · unfold Invocation.codeFrom
    rw [Place.succ, hb, Option.map_some, Option.getD_some]
    rfl

variable (h : Faces K f entry p a)

include h

/-- In front of an instruction that does not end its block stands its code. -/
theorem Faces.instr (hterm : i.isTerminator = false) :
    ∃ code back, Layout.instrCode K.workspace K.homes (index K.graph p) i = .ok code ∧
      f.At entry (code.map .plain ++ back) a ∧ ∀ b, f.At entry back b → Faces K f entry p.succ b := by
  obtain ⟨items, fin, rest, hcode, hat, honward⟩ := h
  obtain ⟨is, heq, hsucc⟩ := codeFrom_eq hi
  cases begins_blockCode (heq.symm.trans hcode) with
  | exit hop | branch hop => simp [Instr.isTerminator, hop, Op.isTerminator] at hterm
  | stopped => cases honward
  | @instr code items' fin _ hinstr hrest =>
    rw [append_assoc] at hat
    exact ⟨code, items' ++ rest, hinstr, hat, fun b hb =>
      ⟨items', fin, rest, hsucc.trans hrest, hb, honward⟩⟩

theorem Faces.exit (hop : i.op = .exit) : ∃ rest, f.At entry (.jump none .epilogue :: rest) a := by
  obtain ⟨items, fin, rest, hcode, hat, honward⟩ := h
  obtain ⟨is, heq, -⟩ := codeFrom_eq hi
  cases begins_blockCode (heq.symm.trans hcode) with
  | exit => exact ⟨rest, hat⟩
  | branch hop' => rw [hop] at hop'; cases hop'
  | instr hterm => simp [Instr.isTerminator, hop, Op.isTerminator] at hterm
  | stopped => cases honward

theorem Faces.branch {c : Value} {ifFalse ifTrue : Int} (hop : i.op = .br c ifFalse ifTrue) :
    ∃ items fin rest, Branches K.graph K.homes p.label c ifFalse ifTrue items fin ∧
      f.At entry (items ++ rest) a ∧ f.Onward fin rest := by
  obtain ⟨items, fin, rest, hcode, hat, honward⟩ := h
  obtain ⟨is, heq, -⟩ := codeFrom_eq hi
  cases begins_blockCode (heq.symm.trans hcode) with
  | exit hop' => rw [hop] at hop'; cases hop'
  | branch hop' hbranch =>
    rw [hop] at hop'
    cases hop'
    exact ⟨items, fin, rest, hbranch, hat, honward⟩
  | instr hterm => simp [Instr.isTerminator, hop, Op.isTerminator] at hterm
  | stopped => cases honward

end Faces

section Runs

/-- The code of a call stands in memory, apart from all that the call accesses. -/
structure Installed (K : Invocation) (f : Written) (entry : UInt64) : Prop where
  log : K.state.log = []
  frame : f.frame = K.frame
  linked : Linked K f
  first : ∃ items back, f.blocks = ⟨0, items⟩ :: back
  short : codeLength f.code < 2 ^ 31
  code : CodeAt K.state.memory entry f.code
  apart : Disjoint (span entry (codeLength f.code)) K.hidden

/-- An event that touches neither the code nor what is hidden. -/
def Free (K : Invocation) (f : Written) (entry : UInt64) (e : RunEvent) : Prop :=
  K.Clear e ∧ Disjoint e.span (span entry (codeLength f.code))

variable {K : Invocation} {f : Written} {entry a : UInt64} {s s' : State} {i : Dynarec.Instr}

theorem span_busEvent (e : Transfer) : (busEvent e).span = e.span := by
  unfold busEvent
  split <;> rfl

theorem Traffic.mem {F : Set UInt64} {l : List Transfer} {ev : List RunEvent} (h : Traffic F l ev)
    {e : Transfer} (he : e ∈ l) : e.span ⊆ F ∨ busEvent e ∈ ev := by
  induction h with
  | nil => cases he
  | hidden hin _ ih =>
    rcases mem_cons.mp he with rfl | he
    · exact Or.inl hin
    · exact ih he
  | seen _ ih =>
    rcases mem_cons.mp he with rfl | he
    · exact Or.inr mem_cons_self
    · exact (ih he).imp_right (mem_cons_of_mem _)

/-- Nothing is written to the code if the bus does not touch it. -/
theorem Installed.spares (hI : Installed K f entry) {ev : List RunEvent}
    (hmoves : Moves K.hidden ev K.state s) (hfree : ∀ e ∈ ev, Free K f entry e) :
    Spares f.code entry s := by
  obtain ⟨l, hl, htraffic⟩ := hmoves
  rw [hI.log, nil_append] at hl
  intro e he _
  rcases htraffic.mem (hl ▸ he) with hin | hev
  · exact Set.disjoint_of_subset_left hin hI.apart.symm
  · exact span_busEvent e ▸ (hfree _ hev).2

theorem Loaded.works {F : Set UInt64} (h : Loaded f.code entry s) (hw : Works F s s') :
    Loaded f.code entry s' :=
  ⟨h.short, h.regular, by rw [hw.memory]; exact h.code⟩

/-- The processor has come to a point of the run. -/
def Arrives (K : Invocation) (f : Written) (entry : UInt64) (past : List Place)
    (c : Point Traced) : Prop :=
  ∃ n s a, Cpu.run n ⟨K.state, entry⟩ = .ok ⟨s, a⟩ ∧ Follows K past c s ∧ Loaded f.code entry s ∧
    Faces K f entry c.place a

theorem Moves.quiet {F : Set UInt64} {ev : List RunEvent} {s s' s'' : State} (h : Moves F ev s s')
    (h' : Moves F [] s' s'') : Moves F ev s s'' := by
  have hmoves := h.trans h'
  rwa [append_nil] at hmoves

theorem branch_of_jump {t : Nat} {g : Frame} {m : Traced}
    (hstep : c.step world.traced K.workspace K.graph i = .jump t g m) :
    ∃ v ifFalse ifTrue x, i.op = .br v ifFalse ifTrue ∧ c.frame.value? v = some x ∧
      t = (if x &&& 1 = 0 then ifFalse else ifTrue).toNat ∧ g = c.frame ∧ m = c.state := by
  cases Trace.acts_of_step hstep with
  | exit _ hr | halts _ _ _ hr | aborts _ hr => cases hr
  | settles _ _ _ hr | inside _ _ _ _ hr => exact absurd hr.symm (Trace.settle_ne_jump _ _ _ _)
  | @branch v ifFalse ifTrue x hop hx hr =>
    generalize ht : (if x &&& 1 = 0 then ifFalse else ifTrue) = t at hr
    unfold Run.jump Run.stopAt at hr
    split_ifs at hr
    obtain ⟨rfl, rfl, rfl⟩ := Step.jump.inj hr
    exact ⟨v, ifFalse, ifTrue, x, hop, hx, by rw [ht], rfl, rfl⟩

theorem log_prefix_of_next {g : Frame} {m : Traced}
    (hstep : c.step world.traced K.workspace K.graph i = .next g m) :
    i.isTerminator = false ∧ c.state.2 <+: m.2 := by
  obtain ⟨ρ, hρ⟩ := Trace.exists_reads c.frame i.op.operands
  cases Trace.acts_of_step hstep with
  | exit _ hr | halts _ _ _ hr | aborts _ hr => cases hr
  | branch _ _ hr => exact absurd hr.symm (Trace.jump_ne_next _ _ _ _ _ _)
  | settles _ _ hgives hr =>
    obtain ⟨-, rfl⟩ := Trace.next_of_settle hr.symm
    exact ⟨Trace.isTerminator_of_gives (hgives hρ), Trace.log_prefix_of_gives (hgives hρ)⟩
  | inside _ _ hin _ hr =>
    obtain ⟨-, rfl⟩ := Trace.next_of_settle hr.symm
    exact ⟨hin.isTerminator, prefix_refl _⟩

variable (hK : K.Proper) (hI : Installed K f entry)

include hK

/-- A run stops at an exit or at an assertion that fails. -/
theorem stop_cases {T : K.graph.Typed} {o : Outcome} {m : Traced} (S : Sane T past c)
    (hi : K.graph.instrAt? c.place = some i)
    (hstep : c.step world.traced K.workspace K.graph i = .stop o m) (ho : o.Permitted i) :
    i.op = .exit ∧ o = .exited ∧ m = c.state ∨
      ∃ v, i.op = .assert v ∧ c.frame.value? v = some 0 ∧ o = .failed (.at i .assertion) ∧
        m = c.state := by
  have hin := mem_instrs hi
  have hready := S.ready hi
  cases Trace.acts_of_step hstep with
  | exit hop hr =>
    cases hr
    exact Or.inl ⟨hop, rfl, rfl⟩
  | @branch _ ifFalse ifTrue x _ _ hr =>
    generalize (if x &&& 1 = 0 then ifFalse else ifTrue) = t at hr
    unfold Run.jump Run.stopAt at hr
    split_ifs at hr
    cases hr
    cases ho
    cases ‹RunCause.Permitted _›
  | settles _ _ _ hr | inside _ _ _ _ hr =>
    unfold Run.settle at hr
    split at hr <;> cases hr
    cases ho
  | aborts hno => exact absurd hready.operands hno
  | halts cause m' hhalts hr =>
    cases hr
    obtain ⟨ρ, hρ⟩ := Trace.exists_reads c.frame i.op.operands
    have hhalts := hhalts hρ
    cases hop : i.op with
    | assert v =>
      obtain ⟨x, hx⟩ := hready.operands v (by simp [hop, Op.operands])
      simp only [Trace.halts, hop, hρ v (by simp [hop, Op.operands]) x hx] at hhalts
      split_ifs at hhalts with hzero
      cases hhalts
      exact Or.inr ⟨v, rfl, hzero ▸ hx, rfl, rfl⟩
    | call target params => exact absurd hop ((hK.plain i hin).2 target params)
    | unknown tag => exact absurd hop (hready.known tag)
    | read reg => simp [Trace.halts, hop, hK.bound reg ⟨i, hin, Or.inl hop⟩] at hhalts
    | write reg v => simp [Trace.halts, hop, hK.bound reg ⟨i, hin, Or.inr ⟨v, hop⟩⟩] at hhalts
    | _ => simp [Trace.halts, hop, World.traced, world] at hhalts

include hI

theorem arrives_start (hregular : AllRegular f.code)
    (vars : Array UInt64) :
    Arrives K f entry [] ⟨⟨0, 0⟩, { vars }, (K.state.memory, [])⟩ := by
  have hin : span (K.state.regs .rsp - 48) 48 ⊆ K.stack :=
    (span_subset_of_le (by decide)).trans (Invocation.savedSpan_subset hK)
  obtain ⟨s, hruns, hrbp, hsaved, hmemory, hmoves⟩ :=
    runs_prologue f.frame K.state (hin.trans Set.subset_union_left)
  have hload : Loaded f.code entry K.state := ⟨hI.short, hregular, hI.code⟩
  have hspares := hI.spares hmoves (by simp)
  have hstands : Stands f.code entry (prologue f.frame ++ (f.body ++ epilogue)) entry :=
    ⟨[], rfl, (UInt64.add_zero entry).symm⟩
  obtain ⟨n, b, hb, hn⟩ := (hruns.append _).steps hload hspares hstands
  have hfirst := f.at_first entry
  obtain rfl : b = entry + (codeLength (prologue f.frame)).toUInt64 := hb.unique hstands.skip
  refine ⟨n, s, _, hn, ⟨rfl, ?_, by simp, hrbp, hsaved, hmoves⟩,
    hload.of_logs hruns.logs hspares, ?_⟩
  · exact fun x hx => hmemory x fun h => hx (hin h)
  · obtain ⟨items, back, hblocks⟩ := hI.first
    refine faces_of_starts hI.linked ⟨[], items, back, hblocks, ?_⟩ hfirst
    rw [Written.items, hblocks, flatMap_cons]

section Steps

variable {T : K.graph.Typed} {g : Frame} {m : Traced} (hi : K.graph.instrAt? c.place = some i)

include hi

/-- Where the run exits the processor returns. -/
theorem returns (h : Arrives K f entry past c) (hop : i.op = .exit)
    (hfree : ∀ e ∈ c.state.2, Free K f entry e) :
    ∃ n c', Cpu.run n ⟨K.state, entry⟩ = .ok c' ∧ c'.rip = K.state.memory.read K.sp 8 ∧
      c'.regs .rsp = K.sp + 8 ∧ (∀ r ∈ restored, c'.regs r = K.state.regs r) ∧
      (∀ a ∉ K.stack, c'.memory a = c.state.1 a) ∧ Moves K.hidden c.state.2 K.state c'.toState := by
  obtain ⟨n, s, a, hrun, hfollows, hload, hfaces⟩ := h
  obtain ⟨rest, hat⟩ := hfaces.exit hi hop
  obtain ⟨s', hruns, hret, hrsp, hregs, hmemory, hmoves⟩ := runs_epilogue hfollows.rbp hfollows.saved
    ((Invocation.savedSpan_subset hK).trans Set.subset_union_left)
  have hmoves' := hfollows.moves.quiet hmoves
  have hspares := (hI.spares hmoves' hfree).of_logs s'.logs_pop
  obtain ⟨k, b, hb, hk⟩ := hruns.steps hload hspares (f.stands_epilogue entry)
  have hload' := hload.of_logs hruns.logs hspares
  have hstep := step_ret (c := ⟨s', b⟩) (hb.codeAt hload')
  refine ⟨n + (k + 1 + 1), ⟨s'.pop.2, s'.pop.1⟩, ?_, hret, hrsp, hregs, ?_, hmoves'⟩
  · refine run_trans hrun (run_of_step (hat.jump hload trivial) (run_trans hk ?_))
    exact run_of_step hstep rfl
  · intro x hx
    show s'.pop.2.memory x = _
    rw [hmemory]
    exact hfollows.memory x hx

variable (S : Sane T past c)

include S

theorem arrives_next (h : Arrives K f entry past c) (hterm : i.isTerminator = false)
    (hstep : c.step world.traced K.workspace K.graph i = .next g m)
    (hfree : ∀ e ∈ m.2, Free K f entry e) :
    Arrives K f entry (past ++ [c.place]) ⟨c.place.succ, g, m⟩ := by
  obtain ⟨n, s, a, hrun, hfollows, hload, hfaces⟩ := h
  obtain ⟨code, back, hcode, hat, hnext⟩ := hfaces.instr hi hterm
  obtain ⟨s', hruns, heffect⟩ := effect_of_step hfollows hK S hi hcode hstep fun e he => (hfree e he).1
  have hfollows' := hfollows.next hK S hi heffect (Place.before_succ.mpr (.inr rfl))
  have hspares := hI.spares hfollows'.moves hfree
  obtain ⟨k, b, hk, -, hb⟩ := hat.runs hruns hload hspares
  exact ⟨n + k, s', b, run_trans hrun hk, hfollows', hload.of_logs hruns.logs hspares,
    hnext b (hb rfl)⟩

/-- A branch goes to the block that the run goes to. -/
theorem runs_branch (hf : Follows K past c s) (hfree : ∀ e ∈ c.state.2, Free K f entry e)
    (hload : Loaded f.code entry s) (hfaces : Faces K f entry c.place a) {v : Value} {ifFalse ifTrue : Int}
    (hop : i.op = .br v ifFalse ifTrue) {x : UInt64} (hx : c.frame.value? v = some x) :
    ∃ n s' b, Cpu.run n ⟨s, a⟩ = .ok ⟨s', b⟩ ∧ Works K.hidden s s' ∧
      Faces K f entry ⟨(if x &&& 1 = 0 then ifFalse else ifTrue).toNat, 0⟩ b := by
  obtain ⟨items, fin, rest, hbranch, hat, honward⟩ := hfaces.branch hi hop
  cases hbranch with
  | stopped => cases honward
  | @const t y hv =>
    subst hv
    obtain rfl : y = x := by simpa [Frame.value?] using hx
    obtain ⟨n, b, hn, hb⟩ := faces_onward hI.linked hload hat honward
    refine ⟨n, s, b, hn, .refl _ s, ?_⟩
    rwa [apply_ite Int.toNat]
  | @var code hcode =>
    obtain ⟨y, hy, hcarries, -, hfits⟩ := hf.operand hK S hi (v := v) (by simp [hop, Op.operands])
    cases hx.symm.trans hy
    have hty : v.ty = .i1 := by
      by_contra hne
      have hshape := T.checkShape_ok hi
      simp [Typing.checkShape, hop, hne] at hshape
    rw [hty] at hfits
    obtain ⟨s', hruns, hworks, hholds⟩ :=
      yields_test (Invocation.framed hK hf.rbp) hcode hcarries hfits
    rw [append_assoc] at hat
    obtain ⟨n, b, hn, -, hb⟩ :=
      hat.runs hruns hload (hI.spares (hf.moves.quiet hworks.moves) hfree)
    have hload' := hload.works hworks
    have htrue : f.HasPlace (.block ifTrue.toNat) := honward.later _ rfl
    obtain ⟨next, hnext, hstep⟩ := (hb rfl).branch hload' htrue (by decide) hholds
    have hbit : x &&& 1 = x := hfits
    rw [hbit]
    by_cases hzero : x = 0
    · obtain ⟨k, b', hk, hfaces'⟩ := faces_onward hI.linked hload' hnext honward
      simp only [hzero, bne_self_eq_false, Bool.false_eq_true, if_false] at hstep
      rw [if_pos hzero]
      exact ⟨n + (k + 1), s', b', run_trans hn (run_of_step hstep hk), hworks, hfaces'⟩
    · have hne : (x != 0) = true := by simpa using hzero
      rw [hne, if_pos rfl] at hstep
      rw [if_neg hzero]
      exact ⟨n + 1, s', _, run_trans hn (run_of_step hstep rfl), hworks,
        faces_block hI.linked htrue⟩

theorem arrives_jump {t : Nat} (h : Arrives K f entry past c)
    (hstep : c.step world.traced K.workspace K.graph i = .jump t g m)
    (hbefore : c.place.Before ⟨t, 0⟩) (hfree : ∀ e ∈ m.2, Free K f entry e) :
    Arrives K f entry (past ++ [c.place]) ⟨⟨t, 0⟩, g, m⟩ := by
  obtain ⟨n, s, a, hrun, hfollows, hload, hfaces⟩ := h
  obtain ⟨v, ifFalse, ifTrue, x, hop, hx, rfl, rfl, rfl⟩ := branch_of_jump hstep
  obtain ⟨k, s', b, hk, hworks, hfaces'⟩ := runs_branch hK hI hi S hfollows hfree hload hfaces hop hx
  have hno : i.hasResult = false := by simp [Instr.hasResult, hop]
  exact ⟨n + k, s', b, run_trans hrun hk,
    hfollows.next hK S hi (effect_works hfollows hno hworks) hbefore, hload.works hworks, hfaces'⟩

/-- Where an assertion fails the processor comes to an invalid instruction. -/
theorem traps (h : Arrives K f entry past c) {v : Value} (hop : i.op = .assert v) (hv : c.frame.value? v = some 0)
    (hfree : ∀ e ∈ c.state.2, Free K f entry e) :
    ∃ n c', Cpu.run n ⟨K.state, entry⟩ = .ok c' ∧
      decode (c'.memory.range c'.rip Cpu.fetchSize) = some (.ud2, 2) ∧
      c'.step = .error .invalidOpcode ∧
      (∀ a ∉ K.stack, c'.memory a = c.state.1 a) ∧ Moves K.hidden c.state.2 K.state c'.toState := by
  obtain ⟨n, s, a, hrun, hfollows, hload, hfaces⟩ := h
  obtain ⟨code, back, hcode, hat, -⟩ :=
    hfaces.instr hi (by simp [Instr.isTerminator, hop, Op.isTerminator])
  obtain ⟨x, hx, hcarries, -, hfits⟩ := hfollows.operand hK S hi (v := v) (by simp [hop, Op.operands])
  obtain rfl : x = 0 := Option.some.inj (hx.symm.trans hv)
  have hselect := (instrCode_ok hcode).2
  simp only [Select.code, hop] at hselect
  obtain ⟨s', hruns, hworks⟩ := runs_assert (Invocation.framed hK hfollows.rbp) hselect hcarries
    (Ty.fits_zero _)
  rw [if_pos rfl] at hruns
  have hmoves := hfollows.moves.quiet hworks.moves
  obtain ⟨k, b, hk, ⟨tail, hb⟩, -⟩ := hat.runs hruns hload (hI.spares hmoves hfree)
  have hcodeAt : CodeAt s'.memory b (.ud2 :: tail) := hb.codeAt (hload.works hworks)
  refine ⟨n + k, ⟨s', b⟩, run_trans hrun hk, hcodeAt.decode ⟨trivial, rfl⟩, step_ud2 hcodeAt, ?_,
    hmoves⟩
  intro y hy
  show s'.memory y = _
  rw [hworks.memory]
  exact hfollows.memory y hy

end Steps

/-- The processor comes to every point of a run that leaves the code and the hidden bytes alone. -/
theorem arrives_of_reaches (T : K.graph.Typed) (hne : 0 < K.graph.blocks.size)
    (hregular : AllRegular f.code)
    (h : Reaches world.traced K.workspace K.graph (K.state.memory, []) past c)
    (hfree : ∀ e ∈ c.state.2, Free K f entry e) : Arrives K f entry past c := by
  induction h with
  | start => exact arrives_start hK hI hregular _
  | @next past c i g m h hi hstep ih =>
    obtain ⟨hterm, hlog⟩ := log_prefix_of_next hstep
    exact arrives_next hK hI hi (h.sane T hne) (ih fun e he => hfree e (hlog.subset he)) hterm hstep
      hfree
  | @jump past c i t g m h hi hstep ih =>
    have S := h.sane T hne
    have hbefore := ((Reaches.jump h hi hstep).sane T hne).ascending.2 c.place (by simp)
    obtain ⟨-, -, -, -, -, -, -, -, rfl⟩ := branch_of_jump hstep
    exact arrives_jump hK hI hi S (ih hfree) hstep hbefore hfree

end Runs

section Assembled

/-- The bytes of code that stands at `entry`. -/
def Assembled.text (code : Assembled) (entry : UInt64) : Set UInt64 :=
  span entry code.length

/-- The return address at the stack pointer, and below it the saved registers and the frame. -/
def Assembled.stack (code : Assembled) (sp : UInt64) : Set UInt64 :=
  span (sp - 48 - code.frame.toUInt64) (code.frame + 56)

/-- A processor about to execute code that stands in its memory. The code, the stack, the registers of
the graph and what a run of the graph touches on the bus have no byte in common. -/
structure Callable (w : Workspace) (g : Graph) (code : Assembled) (bytes : List UInt8) (c : Cpu) :
    Prop where
  log : c.log = []
  loaded : c.memory.range c.rip code.length = bytes
  text_stack : Disjoint (code.text c.rip) (code.stack (c.regs .rsp))
  text_cells : Disjoint (code.text c.rip) (g.cells w)
  stack_cells : Disjoint (code.stack (c.regs .rsp)) (g.cells w)
  bus : ∀ e ∈ (g.trace w c.memory).2.2,
    Disjoint e.span (code.text c.rip ∪ code.stack (c.regs .rsp) ∪ g.cells w)

/-- Code that was called in `c` has come to `c'`. In memory it has left, apart from the stack, what a run
of the graph leaves there, and besides the stack and the registers of the graph it has accessed what the
run accesses, in the same order. -/
structure Matches (w : Workspace) (g : Graph) (code : Assembled) (c c' : Cpu) : Prop where
  steps : ∃ n, Cpu.run n c = .ok c'
  memory : ∀ a ∉ code.stack (c.regs .rsp), c'.memory a = (g.trace w c.memory).2.1 a
  bus : Traffic (code.stack (c.regs .rsp) ∪ g.cells w) c'.log (g.trace w c.memory).2.2

/-- The code has gone back to its caller. -/
structure Returns (c c' : Cpu) : Prop where
  rip : c'.rip = c.memory.read (c.regs .rsp) 8
  rsp : c'.regs .rsp = c.regs .rsp + 8
  saved : ∀ r ∈ Reg.rbp :: Reg.saved, c'.regs r = c.regs r

/-- The processor stands at the instruction that always traps. -/
structure Traps (c : Cpu) : Prop where
  at_ud2 : decode (c.memory.range c.rip Cpu.fetchSize) = some (.ud2, 2)
  step : c.step = .error .invalidOpcode

/-- Assembled code does what a run of its graph does: it returns where the run exits, and traps where an
assertion of the run fails. No other trap is on the way. -/
theorem assemble_refines {w : Workspace} {g : Graph} {b b' : CodeBuffer} {code : Assembled}
    (hg : g.typecheck = .accepted)
    (hplain : ∀ i ∈ g.instrs, (∀ t, i.op ≠ .alloc t) ∧ ∀ target params, i.op ≠ .call target params)
    (hbound : ∀ reg, g.Uses reg → (w.binding reg).isBound = true)
    (hroom : Host.canAllocate b.capacity 1 = true) (hok : assemble w b g = (.ok code, b'))
    (hshort : code.length < 2 ^ 31) (hsmall : code.frame + 48 < 2 ^ 31) {c : Cpu}
    (hc : Callable w g code (b'.extract code.offset (code.offset + code.length)) c) :
    (g.trace w c.memory).1 = .exited ∧ (∃ c', Matches w g code c c' ∧ Returns c c') ∨
      (∃ i, (g.trace w c.memory).1 = .failed (.at i .assertion)) ∧
        ∃ c', Matches w g code c c' ∧ Traps c' := by
  obtain ⟨h, rs, hhomes, hlayout, hframe, hne, hlength, hbytes⟩ :=
    assemble_written (inside_of_assemble hroom hok) hok
  obtain ⟨-, -, ⟨T⟩⟩ := Graph.typecheck_eq_accepted.mp hg
  let K : Invocation := ⟨w, g, h, c.toState⟩
  let f : Written := ⟨h.frameSize, code.offset, rs.flatten⟩
  have hstack : code.stack (c.regs .rsp) = K.stack := by
    rw [Assembled.stack, hframe]
    rfl
  have htext : code.text c.rip = span c.rip (codeLength f.code) := by
    rw [Assembled.text, hlength]
  have hK : K.Proper := by
    refine ⟨Homes.ofGraph_sound T hhomes, ?_, hplain, hbound,
      hstack ▸ hc.stack_cells⟩
    rwa [hframe] at hsmall
  obtain ⟨hfirst, hchained⟩ := layout_chained hne hlayout
  have hI : Installed K f c.rip := by
    refine ⟨hc.log, rfl, hchained, hfirst, hlength ▸ hshort, ?_, ?_⟩
    · have hloaded := hc.loaded
      rw [hbytes, hlength] at hloaded
      exact hloaded
    · rw [← htext]
      exact Set.disjoint_union_right.mpr ⟨hstack ▸ hc.text_stack, hc.text_cells⟩
  obtain ⟨past, p, i, hreach, hi, hstep, ho⟩ :=
    (Graph.run_safe hg Memory.world.traced w (c.memory, [])).2
  have hstops := stop_cases hK (hreach.sane T hne) hi hstep ho
  have hstate : (g.trace w c.memory).2 = p.state := by
    rcases hstops with ⟨-, -, hstate⟩ | ⟨v, -, -, -, hstate⟩ <;> exact hstate
  have hfree : ∀ e ∈ p.state.2, Free K f c.rip e := by
    intro e he
    have hbus := hc.bus e (hstate ▸ he)
    rw [hstack, htext, Set.disjoint_union_right, Set.disjoint_union_right] at hbus
    exact ⟨Set.disjoint_union_right.mpr ⟨hbus.1.2, hbus.2⟩, hbus.1.1⟩
  have hregular := allRegular_written T hne hlayout code.offset
  have harrives := arrives_of_reaches hK hI T hne hregular hreach hfree
  have hmatches : ∀ {n c'}, Cpu.run n c = .ok c' → (∀ a ∉ K.stack, c'.memory a = p.state.1 a) →
      Moves K.hidden p.state.2 K.state c'.toState → Matches w g code c c' := by
    intro n c' hrun hmemory ⟨l, hl, htraffic⟩
    refine ⟨⟨n, hrun⟩, ?_, ?_⟩
    · rw [hstack, hstate]
      exact hmemory
    · rw [hI.log, List.nil_append] at hl
      rw [hstack, hstate, hl]
      exact htraffic
  rcases hstops with ⟨hop, ho, -⟩ | ⟨v, hop, hv, ho, -⟩
  · obtain ⟨n, c', hrun, hrip, hrsp, hregs, hmemory, hmoves⟩ := returns hK hI hi harrives hop hfree
    refine Or.inl ⟨ho, c', hmatches hrun hmemory hmoves, hrip, hrsp, fun r hr => hregs r ?_⟩
    revert hr
    cases r <;> decide
  · obtain ⟨n, c', hrun, hud2, htrap, hmemory, hmoves⟩ :=
      traps hK hI hi (hreach.sane T hne) harrives hop hv hfree
    exact Or.inr ⟨⟨i, ho⟩, c', hmatches hrun hmemory hmoves, hud2, htrap⟩

namespace Third

/-- A third of a register is put on the bus and back into the register, if it has one digit. -/
def graph : Graph where
  blocks := #[
    ⟨0, [⟨.read 0, .i32, 0⟩, ⟨.binop .udiv (.var .i32 0) (.const .i32 3), .i32, 1⟩,
      ⟨.store (.const .i64 0x9000) (.var .i32 1), .void, 0⟩,
      ⟨.icmp .ult (.var .i32 1) (.const .i32 10), .i1, 2⟩, ⟨.assert (.var .i1 2), .void, 0⟩,
      ⟨.write 0 (.var .i32 1), .void, 0⟩, ⟨.exit, .void, 0⟩]⟩]
  varCount := 3

def workspace : Workspace :=
  { registers := 1, bindings := #[⟨.i32, "a", 0x2000⟩], capacity := ⟨1, 7, 0⟩, used := {} }

def code : Assembled := ⟨0, 137, 8, 0⟩

def buffer : CodeBuffer :=
  (assemble workspace { capacity := 256 } graph).2

/-- The register has 20 when the code is called. -/
def call : Cpu :=
  ⟨⟨fun _ => 0x8000, none, setRange (fun a => if a = 0x2000 then 20 else 0) 0x1000
    (buffer.extract 0 137), []⟩, 0x1000⟩

theorem assembled : assemble workspace { capacity := 256 } graph = (.ok code, buffer) := by
  have hparts : (assemble workspace { capacity := 256 } graph).1.toOption.map
      (fun code => (code.offset, code.length, code.frame, code.spilled)) = some (0, 137, 8, 0) := by
    decide +kernel
  refine Prod.ext ?_ rfl
  cases hfirst : (assemble workspace { capacity := 256 } graph).1 with
  | error f => simp [hfirst, Except.toOption] at hparts
  | ok found =>
    simp only [hfirst, Except.toOption, Option.map_some, Option.some.injEq, Prod.mk.injEq] at hparts
    obtain ⟨offset, length, frame, spilled⟩ := found
    obtain ⟨rfl, rfl, rfl, rfl⟩ := hparts
    rfl

theorem uses_zero {reg : Int} (h : graph.Uses reg) : reg = 0 := by
  obtain ⟨i, hi, hreg⟩ := h
  simp only [graph, Graph.instrs, flatMap_cons, flatMap_nil, append_nil,
    mem_cons, not_mem_nil, or_false] at hi
  rcases hi with rfl | rfl | rfl | rfl | rfl | rfl | rfl <;> simp at hreg <;> exact hreg.symm

theorem cells_subset : graph.cells workspace ⊆ span 0x2000 4 := by
  rintro a ⟨reg, huses, ha⟩
  rw [uses_zero huses] at ha
  exact ha

theorem callable : Callable workspace graph code (buffer.extract 0 137) call where
  log := rfl
  loaded := by
    have hlength : (buffer.extract 0 137).length = 137 := by simp [CodeBuffer.extract]
    have hrange : call.memory.range 0x1000 (buffer.extract 0 137).length = buffer.extract 0 137 :=
      range_setRange (by rw [hlength]; decide)
    rwa [hlength] at hrange
  text_stack := span_disjoint_of_le (by decide) (by decide)
  text_cells := Set.disjoint_of_subset_right cells_subset (span_disjoint_of_le (by decide) (by decide))
  stack_cells :=
    Set.disjoint_of_subset_right cells_subset (span_disjoint_of_le (by decide) (by decide)).symm
  bus := by
    have hevents : (graph.trace workspace call.memory).2.2 = [.store 4 0x9000 6 true] := by
      decide +kernel
    rw [hevents]
    simp only [mem_singleton, forall_eq, Set.disjoint_union_right]
    refine ⟨⟨(span_disjoint_of_le ?_ ?_).symm, (span_disjoint_of_le ?_ ?_).symm⟩,
      Set.disjoint_of_subset_right cells_subset (span_disjoint_of_le ?_ ?_).symm⟩
    all_goals decide

end Third

open Third in
theorem assemble_refines_third :
    assemble workspace { capacity := 256 } graph = (.ok code, buffer) ∧
      Callable workspace graph code (buffer.extract 0 137) call ∧
      (graph.trace workspace call.memory).1 = .exited ∧
      ∃ c', Matches workspace graph code call c' ∧ Returns call c' := by
  have hexited : (graph.trace workspace call.memory).1 = .exited := by decide +kernel
  refine ⟨assembled, callable, hexited, ?_⟩
  have hplain : ∀ i ∈ graph.instrs,
      (∀ t, i.op ≠ .alloc t) ∧ ∀ target params, i.op ≠ .call target params := by
    simp [graph, Graph.instrs]
  rcases assemble_refines (by decide +kernel) hplain (fun reg h => uses_zero h ▸ rfl) (by decide)
    assembled (by decide) (by decide) callable with ⟨-, hreturns⟩ | ⟨⟨i, hfailed⟩, -⟩
  · exact hreturns
  · rw [hexited] at hfailed
    cases hfailed

end Assembled

end Native

end Dynarec
