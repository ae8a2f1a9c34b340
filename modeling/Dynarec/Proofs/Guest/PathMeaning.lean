import Dynarec.Proofs.Guest.LiftMeaning
import Dynarec.Proofs.Guest.Steps

/-!
# What paths do

A path is lifted move by move. A run that passes a path does what the moves of the path do: it ends, or
the bus refuses an access, or it enters a block that the path opened.
-/
namespace Dynarec.Guest

open Builder Region Register

variable {a : UInt64} {slot : Mnemonic × Word}

theorem Mnemonic.cause_eq {m : Mnemonic} {cause : UInt64} (hm : m.control = .exception cause) :
    cause = 8 ∨ cause = 9 := by
  cases m <;> cases hm
  · exact Or.inl rfl
  · exact Or.inr rfl

theorem low_ofBool_eq_zero_iff (p : Bool) : Ty.i1.low (Eval.ofBool p) = 0 ↔ p = false := by
  cases p <;> decide

theorem State.low_exceptionVector {t : Ty} (ht : t = Ty.i32 ∨ t = Ty.i64) :
    t.low exceptionVector = (0x80000180#32).signExtend t.bits := by
  rcases ht with rfl | rfl <;> decide

theorem State.low_causeCode {t : Ty} (ht : t = Ty.i32 ∨ t = Ty.i64) {cause : UInt64}
    (hcause : cause = 8 ∨ cause = 9) :
    t.low (cause <<< 2 &&& causeCode) = BitVec.ofNat t.bits cause.toNat <<< 2 := by
  rcases ht with rfl | rfl <;> rcases hcause with rfl | rfl <;> decide

namespace Processor

variable {n : Nat} {μ : Type} (M : Processor n μ)

@[simp] theorem memory_exception (code : BitVec n) : (M.exception code).memory = M.memory := by
  simp only [exception, Core.memory_set]
  split_ifs <;> simp

theorem reg_exception (code : BitVec n) (id : Nat) : (M.exception code).reg id =
    if id = system status then
      M.reg (system status) ||| 2#n
    else if id = system epc ∧
        M.reg (system status) &&& 2#n = 0 then M.pc
    else if id = system cause then
      (M.reg (system cause) &&& ~~~0x7c#n) ||| code <<< 2
    else M.reg id := by
  have hstatus : M.get (system status) = M.reg (system status) :=
    M.get_of_ne (by decide)
  have hcause : M.get (system cause) = M.reg (system cause) :=
    M.get_of_ne (by decide)
  simp only [exception, hstatus, hcause, BitVec.ofNat_eq_ofNat]
  rw [Core.reg_set _ _ (by decide)]
  refine if_congr Iff.rfl rfl ?_
  by_cases hlevel : M.reg (system status) &&& 2#n = 0#n
  · rw [if_pos hlevel, Core.reg_set _ _ (by decide), Core.reg_set _ _ (by decide)]
    simp only [hlevel, and_true]
  · rw [if_neg hlevel, Core.reg_set _ _ (by decide)]
    simp only [hlevel, and_false, if_false]

end Processor

namespace Scene

variable {σ μ : Type}

/-- A region is lifted for the processor of a scene. Exceptions are raised in the state of the scene. -/
structure Lifts (S : Scene σ μ) (l : Lifter) (c : CodeWindow) : Prop extends S.board.Holds l c where
  sound : S.Sound
  exception : ∀ f, l.exception = some f → ∃ impl, S.course.world.call f = some impl ∧
    S.state.RaisedBy S.cells S.memory impl

variable {S : Scene σ μ} {l : Lifter} {c : CodeWindow}

namespace Lifts

variable (h : S.Lifts l c)
include h

theorem setting_eq : Region.setting l c = S.setting := by
  rw [Region.setting, h.width, h.map]
  rfl

/-- An instruction that does not transfer control takes the world where it takes the processor, if the
bus does not refuse its access. -/
theorem lift (hslot : decode? l c a = some slot) (hm : slot.1.control = .none)
    (d : Core S.width.bits μ) :
    S.Tries ((Region.setting l c).lift slot.2 slot.1) d
      (Encoding.exec S.board slot.1 slot.2.code d = none ∧
        S.Refused (Encoding.refusal S.board slot.1 slot.2.code d))
      fun _ d' => Encoding.exec S.board slot.1 slot.2.code d = some d' := by
  obtain ⟨-, -, hsupported⟩ := decode?_eq_some.mp hslot
  rw [h.setting_eq]
  exact h.sound.lift slot.2 hm fun h64 => h.width ▸ isSupported_is64 hsupported h64

theorem writeLink (link : Bool) {n : Nat} (hn : n < 32) {M : Processor S.width.bits μ}
    (hpc : M.pc = S.width.low a) :
    S.Acts (Region.writeLink c link n a) M.toCore fun _ d => d = M.link link n := by
  have hlit := Value.holds_lit S.course.values h.sound.bound.isScalar (c.cut (a + 8))
  rw [h.low_cut, h.low_behind, ← hpc] at hlit
  unfold Region.writeLink Processor.link
  rw [h.width]
  cases link with
  | true => exact h.sound.setReg hn hlit
  | false => exact acts_pure rfl

theorem test (w : Word) (test : Test) (d : Core S.width.bits μ) :
    S.Computes ((Region.setting l c).test w test) d Ty.i1
      (Ty.i1.low (Eval.ofBool (test.onBits (d.get w.rs) (d.get w.rt)))) := by
  have ht := h.sound.bound.isScalar
  have hzero := h.sound.holds_lit 0
  rw [S.width.low_zero] at hzero
  have hx := h.sound.getReg (d := d) w.rs_lt
  have hy := h.sound.getReg (d := d) w.rt_lt
  rw [h.setting_eq]
  cases test with
  | eq => exact hx.bind fun _ hx => hy.bind fun _ hy => computes_icmp ht hx .eq hy
  | ne => exact hx.bind fun _ hx => hy.bind fun _ hy => computes_icmp ht hx .ne hy
  | ltz => exact hx.bind fun _ hx => computes_icmp ht hx .slt hzero
  | gez => exact hx.bind fun _ hx => computes_icmp ht hx .sge hzero
  | lez => exact hx.bind fun _ hx => computes_icmp ht hx .sle hzero
  | gtz => exact hx.bind fun _ hx => computes_icmp ht hx .sgt hzero

end Lifts

variable (S)

/-- The run is over, and has left the processor as it is. -/
structure Ended (M : Processor S.width.bits μ) : Prop where
  outcome : S.course.outcome = .exited
  shows : S.ShowsRest S.course.final M.toCore
  pc : S.state.view S.width (S.cells S.course.final) pc = M.pc
  target : M.target = none

/-- The run enters a block that is to be filled. -/
def Waits (q : Pending) (d : Core S.width.bits μ) : Prop :=
  ∃ (k : Nat) (s : σ), q.label = k ∧ S.course.Enters k s ∧ S.Shows s d

/-- The run is where a landing says it is, while the blocks in `work` are still to be filled. -/
def Lands (work : List Pending) : Landing S.width.bits μ → Prop
  | .ended M => S.Ended M
  | .refused p => S.Refused p
  | .waits k d => ∃ q, work[k]? = some q ∧ S.Waits q d

variable {S}

theorem after_exit {s : σ} {M : Processor S.width.bits μ} (hs : S.ShowsRest s M.toCore)
    (hpc : S.state.view S.width (S.cells s) pc = M.pc) (htarget : M.target = none) :
    S.course.After exit s fun _ _ => S.Ended M := by
  refine Course.after_exit.mono ?_
  rintro _ _ ⟨houtcome, rfl⟩
  exact ⟨houtcome, hs, hpc, htarget⟩

theorem after_sides {s : σ} {cond : Value} {taken : Bool}
    (hcond : cond.Holds S.course.values Ty.i1 (Ty.i1.low (Eval.ofBool taken))) (w : Word)
    (addr : UInt64) (likely : Bool) :
    S.course.After (do
      let notTaken ← newBlock
      let isTaken ← newBlock
      br cond notTaken isTaken
      sides c w addr likely notTaken isTaken) s fun work _ =>
        ∃ (k : Nat) (q : Pending), S.course.Enters k s ∧ q.label = k ∧
          work[if taken then 0 else 1]? = some q := by
  refine Course.after_fork hcond fun n b hn hn' he hbindings henters hend hbegins => ?_
  rw [sides_cases, if_neg (by simp [he])]
  simp only [low_ofBool_eq_zero_iff] at henters
  cases taken with
  | true => exact ⟨n + 1, _, henters, rfl, rfl⟩
  | false => exact ⟨n, _, henters, rfl, rfl⟩

namespace Lifts

variable (h : S.Lifts l c)
include h

theorem after_leave {s : σ} {d : Core S.width.bits μ} (hs : S.Shows s d) (addr : UInt64) :
    S.course.After (leave c addr) s fun _ _ => S.Ended (facing d addr) := by
  have hlit := Value.holds_lit S.course.values h.sound.bound.isScalar addr
  unfold leave
  rw [h.width]
  refine (does_write h.sound (show pc ≠ 0 by decide) (by decide) hlit).bind
    fun _ s' hwrote => ?_
  exact after_exit (M := facing d addr) (hs.setPc hwrote) hwrote.self rfl

theorem shows_raise {s s' : σ} {M : Processor S.width.bits μ} {addr cause : UInt64}
    (hs : S.ShowsRest s M.toCore) (hpc : M.pc = S.width.low addr) (hcause : cause = 8 ∨ cause = 9)
    (hmemory : S.memory s' = S.memory s)
    (hcells : S.cells s' = S.state.raise (S.cells s) cause addr) :
    S.ShowsRest s' (M.exception (.ofNat _ cause.toNat)).toCore where
  memory := by rw [hmemory, hs.memory, M.memory_exception]
  zero := by
    rw [hcells, S.state.view_raise (S.cells s) h.sound.bound.width cause addr (by decide)]
    exact hs.zero
  reg := by
    intro id hid hlt hne
    have hstatus := hs.reg (show system status ≠ 0 by decide) (by decide) (by decide)
    have hold := hs.reg (show Register.system Register.cause ≠ 0 by decide) (by decide) (by decide)
    rw [hcells, S.state.view_raise (S.cells s) h.sound.bound.width cause addr hlt, if_neg hne,
      M.reg_exception, hstatus, hold, hpc, State.low_causeCode h.sound.bound.width hcause,
      hs.reg hid hlt hne]

theorem after_liftException {s : σ} {d : Core S.width.bits μ} (hs : S.Shows s d)
    {addr cause : UInt64} {f : Func} (hf : l.exception = some f) (hcause : cause = 8 ∨ cause = 9) :
    S.course.After (liftException l c cause addr) s fun _ _ =>
      S.Ended ((facing d addr).exception (.ofNat _ cause.toNat)) := by
  obtain ⟨impl, himpl, hraise⟩ := h.exception f hf
  have hlit := Value.holds_lit S.course.values h.sound.bound.isScalar addr
  unfold liftException
  rw [h.width, hf]
  refine (does_write h.sound (show pc ≠ 0 by decide) (by decide) hlit).bind
    fun _ s₁ hwrote => ?_
  refine (Course.does_call himpl _).bind ?_
  rintro _ s₂ rfl
  have hargs : [Value.lit Ty.i64 cause, Value.lit Ty.i64 addr].map (Value.eval S.course.values) =
      [cause, addr] := by
    simp [Value.lit, Value.eval, Ty.mask, Ty.i64]
  rw [hargs]
  obtain ⟨hmemory, hcells⟩ := hraise cause addr s₁
  refine after_exit (h.shows_raise (M := facing d addr) (hs.setPc hwrote) rfl hcause hmemory
    hcells) ?_ rfl
  rw [hcells, S.state.view_raise (S.cells s₁) h.sound.bound.width cause addr (by decide), if_pos rfl,
    State.low_exceptionVector h.sound.bound.width]
  rfl

theorem after_leaveTo {s : σ} {d : Core S.width.bits μ} (hs : S.Shows s d) {address : Nat}
    (haddress : address < 32) {status : Value}
    (hstatus : status.Holds S.course.values S.width (d.get (Register.system Register.status)))
    {level : UInt64} {bit : BitVec S.width.bits} (hlevel : S.width.low level = bit) :
    S.course.After (leaveTo c address status level) s fun _ _ => S.Ended
      { d.set (Register.system Register.status)
          (d.get (Register.system Register.status) &&& ~~~bit) with
        pc := d.get (system address) } := by
  have ht := h.sound.bound.isScalar
  have hlt := system_lt haddress
  have hid : system address ≠ 0 ∧ system address ≠ pc := by
    simp only [system, pc]
    omega
  have hmask := Value.holds_lit S.course.values ht (~~~level)
  rw [Eval.low_not ht.bits_le, hlevel] at hmask
  unfold leaveTo
  rw [h.width]
  refine (computes_read h.sound hid.1 hlt hid.2 s hs).bind fun v hv => ?_
  refine (does_write h.sound (show pc ≠ 0 by decide) (by decide) hv).bind
    fun _ s₁ hpc => ?_
  refine (Course.yields_binop ht hstatus .and hmask).bind fun r hr => ?_
  refine (does_write h.sound (show Register.system Register.status ≠ 0 by decide) (by decide)
    hr).bind fun _ s₂ hwrote => ?_
  refine after_exit ((hs.setPc hpc).set hwrote (by decide)) ?_ rfl
  rw [hwrote.other _ (by decide) (by decide), hpc.self]

theorem after_liftReturn {s : σ} {M : Processor S.width.bits μ} (hs : S.Shows s M.toCore) :
    S.course.After (liftReturn c) s fun _ _ => S.Ended M.exceptionReturn := by
  have ht := h.sound.bound.isScalar
  have hlow (k : Nat) (hk : k < 2 ^ 64) : S.width.low (.ofNat k) = BitVec.ofNat _ k :=
    S.width.low_ofNat hk
  have hlit := Value.holds_lit S.course.values ht State.errorLevel
  have hzero := h.sound.holds_lit 0
  rw [S.width.low_zero] at hzero
  rw [liftReturn_eq, h.width]
  refine (computes_read h.sound (show Register.system Register.status ≠ 0 by decide) (by decide)
    (by decide) s hs).bind fun status hstatus => ?_
  refine (Course.yields_binop ht hstatus .and hlit).bind fun bit hbit => ?_
  refine (Course.yields_icmp ht hbit .ne hzero).bind fun isError herror => ?_
  refine Course.after_fork herror fun n b hn hn' he hbindings henters hend hbegins => ?_
  have hexception := h.after_leaveTo hs (show epc < 32 by decide) hstatus
    (hlow 2 (by decide))
  have herror := h.after_leaveTo hs (show errorEpc < 32 by decide) hstatus
    (hlow 4 (by decide))
  have hlevel : Ty.i1.low (Eval.ofBool (CmpOp.ne.onBits (BinOp.and.onBits
      (M.get (Register.system Register.status)) (S.width.low State.errorLevel)) 0)) = 0 ↔
      M.get (Register.system Register.status) &&& 4#S.width.bits = 0#S.width.bits := by
    have hlow₄ : S.width.low State.errorLevel = 4#S.width.bits := hlow 4 (by decide)
    rw [low_ofBool_eq_zero_iff, hlow₄]
    exact bne_eq_false_iff_eq
  unfold returnSides at hend hbegins
  refine henters.either he hbindings hn hn' (fun hne => ?_) (fun heq => ?_) hend hbegins
  · rw [Processor.exceptionReturn]
    simp only [BitVec.ofNat_eq_ofNat, if_neg (mt hlevel.mpr hne)]
    exact herror
  · rw [Processor.exceptionReturn]
    simp only [BitVec.ofNat_eq_ofNat, if_pos (hlevel.mp heq)]
    exact hexception

/-- Behind an instruction that does not transfer control the run goes on, if the bus does not refuse
its access. -/
theorem after_perform (hslot : decode? l c a = some slot) (hm : slot.1.control = .none) {s : σ}
    {d : Core S.width.bits μ} (hs : S.Shows s d) {β : Type} {g : Unit → Build β} [∀ x, Keeps (g x)]
    {work : β → List Pending} {onward : Core S.width.bits μ → Landing S.width.bits μ}
    (hg : ∀ s' d', S.Shows s' d' →
      S.course.After (g ()) s' fun x _ => S.Lands (work x) (onward d')) :
    S.course.After ((Region.setting l c).lift slot.2 slot.1 >>= g) s fun x _ =>
      S.Lands (work x) (perform S.board slot d onward) := by
  refine (h.lift hslot hm d s hs).bind ?_ ?_
  · rintro _ s' ⟨d', hexec, hs'⟩
    simp only [perform, hexec]
    exact hg s' d' hs'
  · rintro ⟨hnone, hrefused⟩ x b
    simp only [perform, hnone]
    exact hrefused

theorem after_liftBranch {s : σ} {d : Core S.width.bits μ} (hs : S.Shows s d) {addr : UInt64}
    (w : Word) (test : Test) (likely link : Bool) (hdelay : decode? l c (addr + 4) = some slot)
    (hplain : slot.1.control = .none) (rest : Path) :
    S.course.After (liftBranch l c w addr test likely link slot) s fun work _ =>
      S.Lands work (travel S.board ((addr, .branch w test likely link slot) :: rest) d) := by
  rw [liftBranch_eq, travel]
  refine (h.test w test d s hs).bind fun cond hcond => ?_
  refine (h.writeLink (M := facing d addr) link (by decide) rfl s hs).bind ?_
  rintro _ s₁ ⟨_, rfl, hs₁⟩
  generalize test.onBits (d.get w.rs) (d.get w.rt) = taken at hcond ⊢
  have hsides {s' : σ} {d' : Core S.width.bits μ} (hs' : S.Shows s' d') :
      S.course.After (do
        let notTaken ← newBlock
        let isTaken ← newBlock
        br cond notTaken isTaken
        sides c w addr likely notTaken isTaken) s' fun work _ =>
          S.Lands work (.waits (if taken then 0 else 1) d') := by
    refine (after_sides hcond w addr likely).mono ?_
    rintro work _ ⟨k, q, henters, hk, hq⟩
    exact ⟨q, hq, k, s', hk, henters, hs'⟩
  cases likely with
  -- The delay slot stands in the block of the taken side.
  | true => exact hsides hs₁
  | false => exact h.after_perform hdelay hplain hs₁ fun s' d' hs' => hsides hs'

/-- A run that passes a path does what the moves of the path do. -/
theorem after_follow {s : σ} {d : Core S.width.bits μ} (hs : S.Shows s d) (budget count : Nat)
    (addr : UInt64) : S.course.After (follow l c budget count addr) s fun p _ =>
      S.Lands p.work (travel S.board (path l c budget addr) d) := by
  induction budget using Nat.strong_induction_on generalizing count addr s d with
  | _ budget ih =>
    suffices hbuild : S.course.After ((move l c budget addr).build l c budget count addr) s
        fun p _ => S.Lands p.work (travel S.board (path l c budget addr) d) by
      intro b hb he hbegins
      have hb₀ := Keeps.error_eq_none (follow l c budget count addr) he
      rw [follow_eq_build l c hb₀] at he hbegins ⊢
      exact hbuild b hb he hbegins
    have hfrom := move_from l c budget addr
    rw [path_eq]
    generalize move l c budget addr = move at hfrom ⊢
    cases hfrom with
    | stop => exact Course.After.bind_pure ((h.after_leave hs addr).mono fun _ _ hended => hended)
    | plain hdecode hplain =>
      exact h.after_perform hdecode hplain hs fun s' d' hs' =>
        ih (budget - 1) (by omega) hs' (count + 1) (c.cut (addr + 4))
    | exceptionReturn =>
      exact Course.After.bind_pure ((h.after_liftReturn (M := facing d addr) hs).mono
        fun _ _ hended => hended)
    | exception hdecode hm =>
      obtain ⟨f, hf⟩ := isSupported_exception (decode?_eq_some.mp hdecode).2.2 hm
      exact Course.After.bind_pure
        ((h.after_liftException hs hf (Mnemonic.cause_eq hm)).mono fun _ _ hended => hended)
    | @jump _ w link _ _ _ hdelay hplain =>
      refine (h.writeLink (M := facing d addr) link (by decide) rfl s hs).bind ?_
      rintro _ s₁ ⟨_, rfl, hs₁⟩
      exact h.after_perform hdelay hplain hs₁ fun s' d' hs' =>
        ih (budget - 2) (by omega) hs' (count + 2) (jumpTarget c w addr)
    | @jumpRegister _ w link _ _ _ hdelay hplain =>
      have hget := h.sound.getReg (d := d) w.rs_lt
      rw [← h.setting_eq] at hget
      refine (hget s hs).bind fun target htarget => ?_
      refine (h.writeLink (M := facing d addr) link w.rd_lt rfl s hs).bind ?_
      rintro _ s₁ ⟨_, rfl, hs₁⟩
      refine h.after_perform hdelay hplain hs₁ fun s₂ d₂ hs₂ => ?_
      refine (does_write h.sound (show pc ≠ 0 by decide) (by decide) htarget).bind
        fun _ s₃ hwrote => ?_
      exact Course.After.bind_pure ((after_exit (M := ⟨d₂, d.get w.rs, none⟩) (hs₂.setPc hwrote)
        hwrote.self rfl).mono fun _ _ hended => hended)
    | @branch _ w test likely link _ _ _ hslot hplain =>
      exact Course.After.bind_pure (h.after_liftBranch hs w test likely link hslot hplain _)

end Lifts

end Scene

end Dynarec.Guest
