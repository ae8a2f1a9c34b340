import Dynarec.Proofs.Graph.Safety
import Dynarec.Proofs.Guest.PathMeaning
import Dynarec.Proofs.Guest.TypeSoundness

/-!
# Lifted regions run like the processor

The blocks of a region are filled one after the other. Whenever one is about to be filled, a run of the
finished graph is over or enters one of the blocks that wait, as the plan of the region says. When no
block is left the run is over: it does what the plan does to the processor.
-/
namespace Dynarec

/-- An access to the bus, and no call. -/
def RunEvent.isAccess : RunEvent → Bool
  | .load .. | .store .. => true
  | .call .. => false

/-- The same bus with a log of the accesses. -/
def Guest.Bus.traced {μ : Type} (bus : Bus μ) : Bus (μ × List RunEvent) where
  load m n addr :=
    let r := bus.load m.1 n addr
    (r.1, (r.2, m.2 ++ [.load n addr r.1]))
  store m n addr x :=
    let r := bus.store m.1 n addr x
    (r.1, (r.2, m.2 ++ [.store n addr x r.1]))

section Traced

variable {σ μ : Type} {W : World σ} {cells : σ → Cells} {memory : σ → μ} {bus : Guest.Bus μ}

/-- The memory behind a bus, and the accesses in a log. -/
def World.accessed (memory : σ → μ) (s : σ × List RunEvent) : μ × List RunEvent :=
  (memory s.1, s.2.filter RunEvent.isAccess)

theorem World.Joins.traced (h : W.Joins cells memory bus) :
    W.traced.Joins (fun s => cells s.1) (World.accessed memory) bus.traced where
  readCell s a n := h.readCell s.1 a n
  cells_writeCell s a n x := h.cells_writeCell s.1 a n x
  memory_writeCell s a n x := by simp only [World.traced, World.accessed, h.memory_writeCell]
  load s n a := by
    simp only [World.traced, World.accessed, Guest.Bus.traced, h.load, List.filter_append]
    rfl
  cells_load s n a := h.cells_load s.1 n a
  store s n a x := by
    simp only [World.traced, World.accessed, Guest.Bus.traced, h.store, List.filter_append]
    rfl
  cells_store s n a x := h.cells_store s.1 n a x

theorem raisedBy_traced {st : Guest.State} {impl : List UInt64 → σ → UInt64 × σ} {f : Func}
    (hf : W.call f = some impl) (h : st.RaisedBy cells memory impl) :
    ∃ impl', W.traced.call f = some impl' ∧
      st.RaisedBy (fun s => cells s.1) (World.accessed memory) impl' := by
  refine ⟨_, congrArg (Option.map _) hf, fun cause addr s => ?_⟩
  obtain ⟨hmemory, hcells⟩ := h cause addr s.1
  refine ⟨?_, hcells⟩
  simp [World.accessed, hmemory, RunEvent.isAccess]

end Traced

/-- The memory of a host is its window. -/
def Host.bus : Guest.Bus (Option Window) where
  load m n addr :=
    match m with
    | none => (none, none)
    | some w => ((w.load n addr).1, some (w.load n addr).2)
  store m n addr x :=
    match m with
    | none => (false, none)
    | some w => ((w.store n addr x).1, some (w.store n addr x).2)

theorem Host.world_joins (impl : Func → Option Impl) :
    (Host.world impl).Joins Host.cells Host.window Host.bus where
  readCell _ _ _ := rfl
  cells_writeCell _ _ _ _ := rfl
  memory_writeCell _ _ _ _ := rfl
  load h n a := by cases hw : h.window <;> simp [Host.world, Host.bus, hw]
  cells_load h n a := by cases hw : h.window <;> simp [Host.world, hw]
  store h n a x := by cases hw : h.window <;> simp [Host.world, Host.bus, hw]
  cells_store h n a x := by cases hw : h.window <;> simp [Host.world, hw]

namespace Guest

open Builder Region

namespace Region

variable (l : Lifter) (c : CodeWindow)

instance (addr : UInt64) : Keeps (liftAt l c addr) := by
  unfold liftAt
  split
  · infer_instance
  · split <;> infer_instance

instance (p : Pending) (budget count : Nat) : Keeps (fill l c p budget count) := by
  unfold fill
  split <;> infer_instance

theorem onward_fillAll (steps : Nat) (p : Progress) (b : Builder) :
    Onward b (fillAll l c steps p b).2 := by
  induction steps generalizing p b with
  | zero => exact .refl b
  | succ steps ih =>
    cases hp : p.work with
    | nil =>
      rw [fillAll_nil hp]
      exact .refl b
    | cons next rest =>
      cases he : b.error with
      | some e =>
        rw [fillAll_of_error p _ (by simp [he])]
        exact .refl b
      | none =>
        rw [fillAll_cons hp steps he]
        exact (Keeps.onward (a := fill l c next p.budget p.count) b).trans (ih _ _)

instance (steps : Nat) (p : Progress) : Keeps (fillAll l c steps p) where
  onward b := onward_fillAll l c steps p b
  keeps b he := by rw [fillAll_of_error p steps he]

end Region

namespace Scene.Lifts

variable {σ μ : Type} {S : Scene σ μ} {l : Lifter} {c : CodeWindow} (h : S.Lifts l c)
  {w : Terms} (hbindings : w.space.bindings = S.course.space.bindings)
include h hbindings

section Fill

variable {next : Pending} (hfill : Fillable l c next) {k : Nat} (hk : next.label = k)
  {Γ : List Value} {waiting : List Waiting} {left : Allowance} {budget count : Nat} {b : Builder}
  (hb : Underway w left (⟨k, Γ⟩ :: waiting) none b)
  (hend : (fill l c next budget count b).2.error = none)
  (hbegins : (fill l c next budget count b).2.graph.Begins S.course.graph)
include hfill hk hb hend hbegins

theorem lands_fill {d : Core S.width.bits μ} (hwaits : S.Waits next d) :
    S.Lands (fill l c next budget count b).1.work
      (Leg.travel S.board ⟨next.delay.bind (decode? l c), path l c budget next.addr⟩ d) := by
  obtain ⟨k', s, hk', henters, hs⟩ := hwaits
  obtain rfl : k = k' := by
    rw [hk] at hk'
    exact Int.ofNat.inj hk'
  have hbegins₀ : b.graph.Begins S.course.graph :=
    Graph.Begins.trans (Keeps.onward (a := fill l c next budget count) b).begins hbegins
  have hstands := henters.stands hb.error (hb.bindings.trans hbindings)
    (hb.empty _ List.mem_cons_self) rfl hbegins₀
  rw [← hk] at hstands
  unfold fill at hend hbegins ⊢
  rw [bind_apply] at hend hbegins ⊢
  cases hdelay : next.delay with
  | none =>
    simp only [hdelay] at hend hbegins ⊢
    exact h.after_follow hs budget count next.addr _ hstands hend hbegins
  | some a =>
    obtain ⟨slot, hslot, hplain⟩ := hfill a hdelay
    simp only [hdelay, liftAt_eq hslot] at hend hbegins ⊢
    simp only [Option.bind_some, hslot, Leg.travel]
    exact h.after_perform hslot hplain hs
      (fun s' d' hs' => h.after_follow hs' budget count next.addr) _ hstands hend hbegins

theorem lands_fill_cons {rest : List Pending} {L : Landing S.width.bits μ}
    (hL : S.Lands (next :: rest) L) :
    S.Lands ((fill l c next budget count b).1.work ++ rest)
      (Leg.pass S.board c ⟨next.delay.bind (decode? l c), path l c budget next.addr⟩ L) := by
  cases L with
  | ended M => exact hL
  | refused p => exact hL
  | waits i d =>
    obtain ⟨q, hq, hwaits⟩ := hL
    cases i with
    | zero =>
      cases hq
      have hlands := h.lands_fill hbindings hfill hk hb hend hbegins hwaits
      simp only [Leg.pass]
      generalize Leg.travel S.board _ d = L at hlands ⊢
      cases L with
      | ended M => exact hlands
      | refused p => exact hlands
      | waits j d' =>
        obtain ⟨q', hq', hwaits'⟩ := hlands
        refine ⟨q', ?_, hwaits'⟩
        rw [List.getElem?_append_left (List.getElem?_eq_some_iff.mp hq').1, hq']
    | succ i =>
      have hlength : ((path l c budget next.addr).sides c).length =
          (fill l c next budget count b).1.work.length := by
        rw [fill_eq] at hend ⊢
        rw [← (follow_progress hend).2, List.length_map]
      refine ⟨q, ?_, hwaits⟩
      simp only [hlength]
      rw [List.getElem?_append_right (Nat.le_add_left _ i), Nat.add_sub_cancel]
      exact hq

end Fill

/-- When no block is left the run has done what the plan does. -/
theorem lands_fillAll {steps : Nat} {p : Progress} (hp : Feasible l c steps p) {b : Builder}
    {left : Allowance} (hl : w.callee = l.exception) (hb : Opened w (funded left p.budget) [] p.work b)
    {L : Landing S.width.bits μ} (hL : S.Lands p.work L)
    (hend : (fillAll l c steps p b).2.error = none)
    (hbegins : (fillAll l c steps p b).2.graph.Begins S.course.graph) :
    S.Lands [] (tour S.board c (plan l c steps p.budget (p.work.map Pending.side)) L) := by
  have hw : c.width = Ty.i32 ∨ c.width = Ty.i64 := h.width ▸ h.sound.bound.width
  induction steps generalizing p b L with
  | zero =>
    have hnil : p.work = [] := List.eq_nil_of_length_eq_zero (by have := hp.steps; omega)
    exact hnil ▸ hL
  | succ steps ih =>
    cases hwork : p.work with
    | nil =>
      rw [hwork] at hL
      exact hL
    | cons next rest =>
      rw [hwork] at hL
      obtain ⟨k, Γ, ws, left', hk, hunder, hnext⟩ := opens_next hw hl hp hwork hb
      have hfill := hp.fillable next (by simp [hwork])
      rw [fillAll_cons hwork steps hunder.error] at hend hbegins
      have hend' := Keeps.error_eq_none (fillAll l c steps _) hend
      have hbegins' : (fill l c next p.budget p.count b).2.graph.Begins S.course.graph :=
        Graph.Begins.trans (Keeps.onward (a := fillAll l c steps _) _).begins hbegins
      have hlands := h.lands_fill_cons hbindings hfill hk hunder hend' hbegins' hL
      rcases hnext with ⟨e, he, -⟩ | hopened
      · rw [hend'] at he
        cases he
      · have htour := ih (hp.next hwork b) hopened hlands hend hbegins
        rw [fill_eq] at hend' htour
        obtain ⟨hbudget, hsides⟩ := follow_progress hend'
        simp only [List.map_append, hsides] at htour
        rw [Nat.eq_sub_of_add_eq hbudget] at htour
        exact htour

omit hbindings in
/-- A run of a region does what its plan does to the processor. -/
theorem lands_filled {w : Workspace} (hbindings : w.bindings = S.course.space.bindings) {addr : UInt64}
    {code : List UInt8} (hc : c = Lifter.window w addr code)
    {s : σ} {d : Core S.width.bits μ} (henters : S.course.Enters 0 s) (hs : S.Shows s d)
    (hend : (l.filled w addr code).2.error = none)
    (hbegins : (l.filled w addr code).2.graph.Begins S.course.graph) :
    S.Lands [] (l.journey c S.board d) := by
  subst hc
  rcases l.opened_start w addr code with ⟨-, -, he⟩ | hopened
  · have hfilled : l.filled w addr code = (l.outset w addr code, Builder.start w) :=
      fillAll_of_error _ _ (by simp [he])
    rw [hfilled, he] at hend
    cases hend
  · refine h.lands_fillAll (w := l.terms w) hbindings (l.outset_feasible w addr code) rfl hopened ?_ hend
      hbegins
    exact ⟨_, rfl, 0, s, rfl, henters, hs⟩

end Scene.Lifts

/-- The outcome and the final state of a run are what a landing says, and the cell of register zero has
kept its content. -/
def Landing.Describes {t : Ty} {σ μ : Type} (st : State) (cells : σ → Cells) (memory : σ → μ)
    (zero : BitVec t.bits) (r : Outcome × σ) : Landing t.bits μ → Prop
  | .ended M => r.1 = .exited ∧ M.target = none ∧
      st.view t (cells r.2) Register.pc = M.pc ∧
      (∀ id < Register.count, id ≠ 0 → id ≠ Register.pc → st.view t (cells r.2) id = M.reg id) ∧
      st.view t (cells r.2) 0 = zero ∧ memory r.2 = M.memory
  | .refused p => (∃ i, r.1 = .failed (.at i p.1)) ∧
      (∀ id < Register.count, id ≠ 0 → st.view t (cells r.2) id = p.2.reg id) ∧
      st.view t (cells r.2) 0 = zero ∧ memory r.2 = p.2.memory
  | .waits _ _ => False

theorem Scene.Lands.describes {σ μ : Type} {S : Scene σ μ} {L : Landing S.width.bits μ}
    (h : S.Lands [] L) :
    L.Describes S.state S.cells S.memory S.zero (S.course.outcome, S.course.final) := by
  cases L with
  | ended M =>
    exact ⟨h.outcome, h.target, h.pc, fun id hlt hid hpc => h.shows.reg hid hlt hpc, h.shows.zero,
      h.shows.memory⟩
  | refused p =>
    obtain ⟨hstopped, hshows⟩ := h
    refine ⟨hstopped, fun id hlt hid => ?_, hshows.zero, hshows.memory⟩
    by_cases hpc : id = Register.pc
    · rw [hpc]
      exact hshows.pc
    · exact hshows.reg hid hlt hpc
  | waits k d =>
    obtain ⟨q, hq, -⟩ := h
    cases hq

theorem exists_leads {σ : Type} {g : Graph} (htyped : g.typecheck = .accepted) (hfree : g.IsSlotFree)
    (W : World σ) (w : Workspace) (s : σ) :
    ∃ ρ b, g.blocks[0]? = some b ∧
      Trace.Leads W w g ρ 0 b.instrs s (g.run W w s).1 (g.run W w s).2 := by
  obtain ⟨-, -, i, -, -, -, hpermitted⟩ := Graph.run_ends htyped W w s
  refine Trace.leads_of_run htyped hfree rfl ?_
  generalize (g.run W w s).1 = o at hpermitted ⊢
  cases hpermitted with
  | exited h => exact Or.inl rfl
  | failed h =>
    refine Or.inr ⟨i, _, rfl, ?_⟩
    rintro target rfl
    cases h

namespace Lifter

theorem holds_window (l : Lifter) {t : Ty} (ht : t = Ty.i32 ∨ t = Ty.i64) {space : Workspace}
    (hone : (space.binding 1).ty = t) (addr : UInt64) {code : List UInt8}
    (hcode : (t.low addr).toNat + code.length ≤ 2 ^ t.bits) {μ : Type} (bus : Bus μ) :
    Board.Holds ⟨t.low addr, code, bus, l.map⟩ l (window space addr code) := by
  have hbits : t.bits ≤ 64 := by rcases ht with rfl | rfl <;> decide
  have hstart : (window space addr code).start = addr &&& t.mask := by rw [window, hone]
  refine ⟨ht, hone, rfl, ?_, rfl, hstart ▸ t.fits_and_mask addr, ?_⟩
  · rw [hstart, Ty.low_and_mask hbits]
  · rw [hstart, ← Nat.mod_eq_of_lt ((Ty.fits_iff_lt hbits _).mp (t.fits_and_mask addr)),
      ← Ty.toNat_low, Ty.low_and_mask hbits]
    exact hcode

/-- A region that was lifted does what its plan does to the processor. -/
theorem run_journey (l : Lifter) {w₀ w : Workspace} (hw₀ : w₀.Made) {st : State} {t : Ty}
    (hbind : st.bind w₀ t = .ok w) (used used' : Arenas) (addr : UInt64) (code : List UInt8)
    (hcode : (t.low addr).toNat + code.length ≤ 2 ^ t.bits) {σ μ : Type} {W : World σ}
    {cells : σ → Cells} {memory : σ → μ} {bus : Bus μ} (hW : W.Joins cells memory bus)
    (hraise : ∀ f, l.exception = some f →
      ∃ impl, W.call f = some impl ∧ st.RaisedBy cells memory impl)
    {g : Graph} (hg : (l.lift { w with used } addr code).1 = .ok g) (s : σ) :
    (l.journey (window { w with used } addr code) (⟨t.low addr, code, bus, l.map⟩ : Board t.bits μ)
      ⟨st.view t (cells s), memory s⟩).Describes st cells memory (st.view t (cells s) 0)
        (g.run W { w with used := used' } s) := by
  have hspace : Workspace.Made { w with used } := (hw₀.bindState hbind).use used
  have hw := (State.bind_eq_ok hbind).1
  have hs : st.Bound t { w with used } := ⟨hw.width, hw.zero, hw.binding, hw.cell⟩
  have hs' : st.Bound t { w with used := used' } := ⟨hw.width, hw.zero, hw.binding, hw.cell⟩
  have hone := hs.ty_one
  have htyped := (l.lift_typecheck addr code hspace hg).1
  obtain ⟨-, hunder, hgraph, -⟩ := l.underway_of_lift addr code hg
  have hend := hunder.error
  obtain ⟨ρ, b, hb, hleads⟩ := exists_leads htyped (hgraph ▸ hunder.slotFree) W { w with used := used' } s
  generalize g.run W { w with used := used' } s = r at hleads ⊢
  let S : Scene σ μ :=
    { course := ⟨W, { w with used := used' }, g, ρ, r.1, r.2⟩
      cells := cells
      memory := memory
      state := st
      width := t
      board := ⟨t.low addr, code, bus, l.map⟩
      zero := st.view t (cells s) 0 }
  have hlifts : S.Lifts l (window { w with used } addr code) :=
    ⟨l.holds_window hs.width hone addr hcode bus, ⟨hW, hs'⟩, hraise⟩
  have hbegins : (l.filled { w with used } addr code).2.graph.Begins S.course.graph := by
    rw [← hgraph]
    exact Graph.Begins.refl g
  exact (hlifts.lands_filled (w := { w with used }) rfl rfl ⟨b, hb, hleads⟩
    ⟨⟨rfl, rfl, fun _ _ _ => rfl⟩, rfl⟩ hend hbegins).describes

/-- A region that was lifted, as a run of the processor. -/
theorem run_lift (l : Lifter) {w₀ w : Workspace} (hw₀ : w₀.Made) {st : State} {t : Ty}
    (hbind : st.bind w₀ t = .ok w) (used used' : Arenas) (addr : UInt64) (code : List UInt8)
    (hcode : (t.low addr).toNat + code.length ≤ 2 ^ t.bits) {σ μ : Type} {W : World σ}
    {cells : σ → Cells} {memory : σ → μ} {bus : Bus μ} (hW : W.Joins cells memory bus)
    (hraise : ∀ f, l.exception = some f →
      ∃ impl, W.call f = some impl ∧ st.RaisedBy cells memory impl)
    {g : Graph} (hg : (l.lift { w with used } addr code).1 = .ok g) {s s' : σ}
    (hrun : g.run W { w with used := used' } s = (.exited, s')) :
    ∃ (log : List RunEvent) (n : Nat) (M : Processor t.bits (μ × List RunEvent)),
      g.run W.traced { w with used := used' } (s, []) = (.exited, (s', log)) ∧
      1 ≤ n ∧ n ≤ l.budget ∧
      Processor.steps ⟨t.low addr, code, bus.traced, l.map⟩ n
        ⟨⟨st.view t (cells s), (memory s, [])⟩, t.low addr, none⟩ = some M ∧
      M.target = none ∧ st.view t (cells s') Register.pc = M.pc ∧
      (∀ id < Register.count, id ≠ 0 → id ≠ Register.pc → st.view t (cells s') id = M.reg id) ∧
      st.view t (cells s') 0 = st.view t (cells s) 0 ∧
      memory s' = M.memory.1 ∧ log.filter RunEvent.isAccess = M.memory.2 := by
  have hw := (State.bind_eq_ok hbind).1
  have hs : st.Bound t { w with used } := ⟨hw.width, hw.zero, hw.binding, hw.cell⟩
  have hone := hs.ty_one
  obtain ⟨log, hlog⟩ : ∃ log,
      g.run W.traced { w with used := used' } (s, []) = (.exited, (s', log)) := by
    have htraced := g.run_traced W { w with used := used' } s []
    rw [hrun] at htraced
    generalize g.run W.traced { w with used := used' } (s, []) = r at htraced ⊢
    obtain ⟨o, s₁, log⟩ := r
    obtain ⟨rfl, rfl⟩ := Prod.mk.inj htraced
    exact ⟨log, rfl⟩
  have hdescribes := l.run_journey hw₀ hbind used used' addr code hcode hW.traced
    (fun f hf => by
      obtain ⟨impl, hcall, himpl⟩ := hraise f hf
      exact raisedBy_traced hcall himpl) hg (s, [])
  have hholds := l.holds_window hs.width hone addr hcode bus.traced
  rw [hlog] at hdescribes
  cases hjourney : l.journey (window { w with used } addr code)
      (⟨t.low addr, code, bus.traced, l.map⟩ : Board t.bits (μ × List RunEvent))
      ⟨st.view t (cells s), (memory s, [])⟩ with
  | ended M =>
    obtain ⟨n, hpos, hle, hsteps⟩ :=
      hholds.steps_journey (l.liftable_of_lift _ addr code hg) _ hjourney
    rw [hholds.facing_start] at hsteps
    have hended : Landing.Describes st (fun s => cells s.1) (World.accessed memory)
        (st.view t (cells s) 0) (Outcome.exited, (s', log)) (Landing.ended M) :=
      hjourney ▸ hdescribes
    obtain ⟨-, htarget, hpc, hreg, hzero, hmemory⟩ := hended
    exact ⟨log, n, M, hlog, hpos, hle, hsteps, htarget, hpc, hreg, hzero,
      congrArg Prod.fst hmemory, congrArg Prod.snd hmemory⟩
  | refused p =>
    have hrefused : Landing.Describes st (fun s => cells s.1) (World.accessed memory)
        (st.view t (cells s) 0) (Outcome.exited, (s', log)) (Landing.refused p) :=
      hjourney ▸ hdescribes
    obtain ⟨⟨i, hi⟩, -⟩ := hrefused
    cases hi
  | waits k d => exact (hjourney ▸ hdescribes : Landing.Describes st (fun s => cells s.1)
      (World.accessed memory) (st.view t (cells s) 0) (Outcome.exited, (s', log))
        (Landing.waits k d)).elim

/-- A likely branch that is always taken, its delay slot, a store and a system call. -/
def storeCode : List UInt8 :=
  Word.toBytes [.ofI 20 0 0 1, .ofI 9 0 2 5, .ofI 43 0 2 0x20, .ofR 0 0 0 0 0 12]

/-- Lifts system calls. -/
def storeLifter : Lifter :=
  { maxInstructions := 6, exception := some ⟨"exception", 0⟩ }

def storeGraph : Graph :=
  (storeLifter.lift { boundSpace with used := {} } 0x400 storeCode).1.toOption.getD Graph.empty

/-- A host whose calls raise exceptions. -/
def raising : World Host :=
  Host.world fun _ => some fun args h =>
    (0, { h with cells := State.raise ⟨0x1000⟩ h.cells ((args[0]?).getD 0) ((args[1]?).getD 0) })

theorem raising_joins : raising.Joins Host.cells Host.window Host.bus :=
  Host.world_joins _

theorem raising_call (f : Func) : ∃ impl, raising.call f = some impl ∧
    State.RaisedBy ⟨0x1000⟩ Host.cells Host.window impl :=
  ⟨_, rfl, fun _ _ _ => ⟨rfl, rfl⟩⟩

theorem run_lift_store :
    let h : Host := { window := some { size := 64, isTracing := true } }
    smallSpace.Made ∧ State.bind ⟨0x1000⟩ smallSpace Ty.i64 = .ok boundSpace ∧
      (storeLifter.lift { boundSpace with used := {} } 0x400 storeCode).1 = .ok storeGraph ∧
      ∃ h', storeGraph.run raising { boundSpace with used := {} } h = (.exited, h') ∧
        ∃ n M, 1 ≤ n ∧ n ≤ storeLifter.budget ∧
          Processor.steps ⟨Ty.i64.low 0x400, storeCode, Host.bus.traced, storeLifter.map⟩ n
            ⟨⟨State.view ⟨0x1000⟩ Ty.i64 h.cells, (h.window, [])⟩, Ty.i64.low 0x400, none⟩ =
              some M ∧
          State.view ⟨0x1000⟩ Ty.i64 h'.cells Register.pc = M.pc ∧ h'.window = M.memory.1 := by
  intro h
  have hlift : (storeLifter.lift { boundSpace with used := {} } 0x400 storeCode).1 = .ok storeGraph :=
    Except.eq_ok_getD (by decide +kernel) Graph.empty
  obtain ⟨h', hrun⟩ : ∃ h', storeGraph.run raising { boundSpace with used := {} } h = (.exited, h') := by
    have hexited : (storeGraph.run raising { boundSpace with used := {} } h).1 = .exited := by
      decide +kernel
    generalize storeGraph.run raising { boundSpace with used := {} } h = r at hexited ⊢
    exact ⟨r.2, Prod.ext hexited rfl⟩
  obtain ⟨-, n, M, -, hpos, hle, hsteps, -, hpc, -, -, hmemory, -⟩ :=
    run_lift storeLifter smallSpace_made bind_smallSpace {} {} 0x400 storeCode (by decide)
      raising_joins (fun f _ => raising_call f) hlift hrun
  exact ⟨smallSpace_made, bind_smallSpace, hlift, h', hrun, n, M, hpos, hle, hsteps, hpc, hmemory⟩

end Lifter

end Guest

end Dynarec
