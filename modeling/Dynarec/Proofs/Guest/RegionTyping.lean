import Dynarec.Proofs.Guest.Path

/-!
# Typing of lifted regions

Filling a block closes it, and the blocks it opens wait. So the work list always holds the blocks that
are still empty, and when it is empty the graph is finished. Every instruction of the budget pays for two
blocks, fourteen instructions and a third of a call; a path that is open needs two instructions more to
be left, and a call less a third that the path has paid for already.
-/
namespace Dynarec.Guest

open Builder Site Register List

/-- What a block costs that is still empty: its delay slot, if it has one, and leaving. -/
def Pending.cost (p : Pending) : Nat :=
  (if p.delay.isSome then 14 else 0) + 2

namespace Region

set_option synthInstance.maxSize 65536

variable (l : Lifter) (c : CodeWindow)

instance (addr : UInt64) : Keeps (leave c addr) := by
  unfold leave
  infer_instance

instance (link : Bool) (n : Nat) (addr : UInt64) : Straight (writeLink c link n addr) := by
  unfold writeLink
  infer_instance

instance (address : Nat) (status : Value) (level : UInt64) :
    Straight (leaveTo c address status level) := by
  unfold leaveTo
  infer_instance

instance (status : Value) (fromException fromError : Int) :
    Keeps (returnSides c status fromException fromError) := by
  unfold returnSides
  infer_instance

instance (w : Word) (addr : UInt64) (likely : Bool) (notTaken taken : Int) :
    Keeps (sides c w addr likely notTaken taken) where
  onward b := by
    rw [sides_cases]
    exact .refl b
  keeps b _ := by rw [sides_cases]

instance (w : Word) (addr : UInt64) (test : Test) (likely link : Bool) (slot : Mnemonic × Word) :
    Keeps (liftBranch l c w addr test likely link slot) := by
  rw [liftBranch_eq]
  infer_instance

instance : Keeps (liftReturn c) := by
  rw [liftReturn_eq]
  infer_instance

instance (cause addr : UInt64) : Straight (liftException l c cause addr) := by
  unfold liftException
  infer_instance

theorem onward_follow (budget count : Nat) (addr : UInt64) (b : Builder) :
    Onward b (follow l c budget count addr b).2 := by
  induction budget using Nat.strong_induction_on generalizing count addr b with
  | _ budget ih =>
    cases he : b.error with
    | some e =>
      rw [follow_of_error l c (by simp [he])]
      exact .refl b
    | none =>
      rw [follow_eq_build l c he]
      have hfrom := move_from l c budget addr
      generalize move l c budget addr = move at hfrom ⊢
      cases hfrom with
      | stop =>
        simp only [Move.build, bind_apply, pure_apply]
        exact Keeps.onward (a := leave c addr) b
      | @plain m w =>
        simp only [Move.build, bind_apply]
        exact (Keeps.onward (a := (setting l c).lift w m) b).trans (ih _ (by omega) _ _ _)
      | exceptionReturn =>
        simp only [Move.build, bind_apply, pure_apply]
        exact Keeps.onward (a := liftReturn c) b
      | @exception _ _ cause =>
        simp only [Move.build, bind_apply, pure_apply]
        exact Keeps.onward (a := liftException l c cause addr) b
      | @jump _ w link slot =>
        simp only [Move.build, bind_apply]
        refine (Keeps.onward (a := writeLink c link 31 addr) b).trans ?_
        exact (Keeps.onward (a := (setting l c).lift slot.2 slot.1) _).trans
          (ih _ (by omega) _ _ _)
      | @jumpRegister _ w link slot =>
        have h : Keeps (Move.build l c budget count addr (.jumpRegister w link slot)) := by
          unfold Move.build
          infer_instance
        exact h.onward b
      | @branch _ w test likely link slot =>
        simp only [Move.build, bind_apply, pure_apply]
        exact Keeps.onward (a := liftBranch l c w addr test likely link slot) b

instance (budget count : Nat) (addr : UInt64) : Keeps (follow l c budget count addr) where
  onward b := onward_follow l c budget count addr b
  keeps b he := by rw [follow_of_error l c he]

/-- Block `k` of a region, while others wait. -/
def site (w : Terms) (waiting : List Waiting) (k : Nat) : Site :=
  ⟨w, count, c.width, waiting, k⟩

/-- A failure has nothing to do with the block it happened in. -/
theorem stuck_site {c : CodeWindow} {w : Terms} {waiting waiting' : List Waiting} {k k' : Nat}
    {b : Builder} (h : (site c w waiting k).Stuck b) : (site c w waiting' k').Stuck b :=
  h

section Moves

variable {l c} (hw : c.width = Ty.i32 ∨ c.width = Ty.i64) {w : Terms} {left : Allowance}
  {waiting : List Waiting} {k : Nat} {Γ : List Value}
include hw

theorem setting_at : (setting l c).At (site c w waiting k) :=
  ⟨rfl, rfl, hw⟩

theorem closes_leave (addr : UInt64) : (site c w waiting k).Closes Γ 0 2 0 (leave c addr) := by
  have hat : (setting {} c).At (site c w waiting k) := setting_at hw
  exact (hat.write (n := pc) (by decide) (hat.known_lit addr)).bind
    fun _ => closes_exit

theorem closes_leaveTo {address : Nat} (ha : address < 32) {status : Value}
    (hs : status.Known Γ c.width) (level : UInt64) :
    (site c w waiting k).Closes Γ 0 5 0 (leaveTo c address status level) := by
  have hat : (setting {} c).At (site c w waiting k) := setting_at hw
  refine (hat.yields_read (system_lt ha)).closes fun _ hv => ?_
  refine (hat.write (n := pc) (by decide) hv).bind fun _ => ?_
  refine (hat.binop hs.tail .and (hat.known_lit _)).closes fun _ hr => ?_
  exact (hat.write (system_lt (by decide)) hr).bind fun _ => closes_exit

theorem runs_writeLink (link : Bool) {n : Nat} (hn : n < 32) (addr : UInt64) :
    (site c w waiting k).Runs Γ 1 (writeLink c link n addr) := by
  have hat : (setting {} c).At (site c w waiting k) := setting_at hw
  exact .ite (fun _ => hat.setReg hn (hat.known_lit _)) fun _ => runs_pure _

theorem closes_returnSides {status : Value} (hs : status.Known Γ c.width) {n : Nat} {b : Builder}
    (hb : Underway w (left.plus 0 10 0) (⟨n + 1, Γ⟩ :: ⟨n, Γ⟩ :: waiting) none b) :
    (site c w waiting k).Stuck (returnSides c status n (n + 1 : Nat) b).2 ∨
      Underway w left waiting none (returnSides c status n (n + 1 : Nat) b).2 := by
  have herror : (site c w (⟨n, Γ⟩ :: waiting) (n + 1)).Closes Γ 0 5 0
      (leaveTo c errorEpc status State.errorLevel) :=
    closes_leaveTo hw (by decide) hs State.errorLevel
  have hexception : (site c w waiting n).Closes Γ 0 5 0
      (leaveTo c epc status State.exceptionLevel) :=
    closes_leaveTo hw (by decide) hs State.exceptionLevel
  have hready : (site c w (⟨n, Γ⟩ :: waiting) (n + 1)).Ready ((left.plus 0 5 0).plus 0 5 0) Γ
      (setBlock (n + 1 : Nat) b).2 := hb.setBlock count c.width
  unfold returnSides
  rw [bind_apply, bind_apply]
  rcases herror _ _ hready with hstuck | hmid
  · exact Or.inl ((stuck_site hstuck).keeps _)
  · rw [bind_apply]
    exact (hexception _ _ (hmid.setBlock count c.width)).imp_left stuck_site

theorem closes_liftReturn : (site c w waiting k).Closes Γ 2 14 0 (liftReturn c) := by
  have hat : (setting {} c).At (site c w waiting k) := setting_at hw
  rw [liftReturn_eq]
  refine (hat.yields_read (system_lt (by decide))).closes fun status hs => ?_
  refine (hat.binop hs .and (hat.known_lit _)).closes fun bit hb => ?_
  refine (yields_icmp hb .ne (hat.known_lit 0)).closes fun isError hc => ?_
  exact fork hc fun left n b hunder => closes_returnSides hw hs.tail.tail hunder

theorem closes_liftException {m : Mnemonic} (hm : isSupported l c m = true) {cause : UInt64}
    (hcause : m.control = .exception cause) (hl : w.callee = l.exception) (addr : UInt64) :
    (site c w waiting k).Closes Γ 0 3 3 (liftException l c cause addr) := by
  have hat : (setting l c).At (site c w waiting k) := setting_at hw
  obtain ⟨f, hf⟩ := isSupported_exception hm hcause
  unfold liftException
  rw [hf]
  refine (hat.write (n := pc) (by decide) (hat.known_lit addr)).bind fun _ => ?_
  exact Spec.bind (runs_call (hl.trans hf) (.lit (t := Ty.i64) (by decide) cause)
    (.lit (t := Ty.i64) (by decide) addr)) fun left _ b hb => closes_exit b left hb

/-- The blocks that a path opens, at the head of those that wait, and what leaving them costs. -/
def Opened (w : Terms) (left : Allowance) (waiting : List Waiting) (work : List Pending) (b : Builder) :
    Prop :=
  ∃ ws : List Waiting, work.map Pending.label = ws.map (fun p => (p.block : Int)) ∧
    Underway w (left.plus 0 (work.map Pending.cost).sum (2 * work.length)) (ws ++ waiting) none b

/-- What the budget pays for. -/
abbrev funded (left : Allowance) (budget : Nat) : Allowance :=
  left.plus (2 * budget) (14 * budget) budget

theorem opens_liftBranch (wd : Word) (addr : UInt64) (test : Test) (likely link : Bool)
    {slot : Mnemonic × Word} (hslot : isSupported l c slot.1 = true) :
    (site c w waiting k).Spec Γ 2 23 4 (liftBranch l c wd addr test likely link slot)
      (fun left => Opened w left waiting) := by
  have hat : (setting l c).At (site c w waiting k) := setting_at hw
  rw [liftBranch_eq]
  have hlift {Γ : List Value} : (site c w waiting k).Runs Γ (if likely then 0 else 14)
      (if likely then pure () else (setting l c).lift slot.2 slot.1) := by
    cases likely with
    | true => exact runs_pure _
    | false => exact hat.lift slot.2 (isSupported_is64 hslot)
  -- a delay slot is paid for here or in the block that it is lifted in
  have hcost : (if likely then 18 else 4) + 1 + (if likely then 0 else 14) + 1 + 3 ≤ 23 := by
    cases likely <;> decide
  refine Spec.le ((hat.test wd test).bind fun cond hc => ?_) le_rfl hcost le_rfl
  refine (runs_writeLink hw link (by decide) addr).bind fun _ => hlift.bind fun _ => ?_
  refine fork hc fun left n b hunder => Or.inr ?_
  rw [sides_cases, if_neg (by simp [hunder.error])]
  refine ⟨[⟨n + 1, cond :: Γ⟩, ⟨n, cond :: Γ⟩], rfl, ?_⟩
  cases likely <;> exact hunder

/-- A path closes its block. -/
theorem opens_follow (hl : w.callee = l.exception) (budget count : Nat) (addr : UInt64) :
    (site c w waiting k).Spec Γ (2 * budget) (14 * budget + 2) (budget + 2)
      (follow l c budget count addr) (fun left p => Opened w (funded left p.budget) waiting p.work) := by
  induction budget using Nat.strong_induction_on generalizing count addr with
  | _ budget ih =>
    have hat : (setting l c).At (site c w waiting k) := setting_at hw
    suffices h : (site c w waiting k).Spec Γ (2 * budget) (14 * budget + 2) (budget + 2)
        ((move l c budget addr).build l c budget count addr)
        (fun left p => Opened w (funded left p.budget) waiting p.work) by
      intro b left hb
      rw [follow_eq_build l c hb.error]
      exact h b left hb
    have hclosed {a : Build Unit} {i j n : Nat} (ha : (site c w waiting k).Closes Γ i j n a) (p : Progress)
        (hp : p.work = []) (hi : 2 * p.budget + i ≤ 2 * budget) (hj : 14 * p.budget + j ≤ 14 * budget + 2)
        (hn : p.budget + n ≤ budget + 2) :
        (site c w waiting k).Spec Γ (2 * budget) (14 * budget + 2) (budget + 2) (a >>= fun _ => pure p)
          (fun left p => Opened w (funded left p.budget) waiting p.work) := by
      refine Spec.le (Spec.bind ha fun left _ b hunder => Or.inr ?_) hi hj hn
      rw [pure_apply, hp]
      exact ⟨[], rfl, hunder⟩
    have hfrom := move_from l c budget addr
    generalize move l c budget addr = move at hfrom ⊢
    cases hfrom with
    | stop => exact hclosed (closes_leave hw addr) _ rfl le_rfl le_rfl (by simp)
    | @plain m wd hdecode =>
      have hlift := hat.lift wd (isSupported_is64 (decode?_eq_some.mp hdecode).2.2) (Γ := Γ)
      have hrest := ih (budget - 1) (by omega) (count + 1) (c.cut (addr + 4))
      exact Spec.le (hlift.bind fun _ => hrest) (by omega) (by omega) (by omega)
    | exceptionReturn =>
      exact hclosed (closes_liftReturn hw) _ rfl (by dsimp only; omega) (by dsimp only; omega)
        (by dsimp only; omega)
    | exception hdecode hm =>
      exact hclosed (closes_liftException hw (decode?_eq_some.mp hdecode).2.2 hm hl addr) _ rfl
        (by dsimp only; omega) (by dsimp only; omega) (by dsimp only; omega)
    | @jump _ wd link slot _ _ hslot =>
      have hs := (decode?_eq_some.mp hslot).2.2
      have hlift := hat.lift slot.2 (isSupported_is64 hs) (Γ := Γ)
      have hrest := ih (budget - 2) (by omega) (count + 2)
        (c.cut (((addr + 4) &&& ~~~0x0fffffff) ||| wd.target))
      exact Spec.le ((runs_writeLink hw link (by decide) addr).bind fun _ => hlift.bind fun _ => hrest)
        (by omega) (by omega) (by omega)
    | @jumpRegister _ wd link slot _ _ hslot =>
      have hs := (decode?_eq_some.mp hslot).2.2
      refine Spec.le ((hat.getReg wd.rs_lt).bind fun target ht =>
        (runs_writeLink hw link wd.rd_lt addr).bind fun _ =>
        (hat.lift slot.2 (isSupported_is64 hs)).bind fun _ =>
        (hat.write (n := pc) (by decide) ht).bind fun _ =>
        Spec.bind closes_exit (j := 2 * (budget - 2)) (n := 14 * (budget - 2))
          (d := budget - 2) fun left _ b hunder => Or.inr ⟨[], rfl, hunder⟩) ?_ ?_ ?_
      all_goals omega
    | @branch _ wd test likely link slot _ _ hslot =>
      have hs := (decode?_eq_some.mp hslot).2.2
      have hbranch := @opens_liftBranch l c hw w waiting k Γ wd addr test likely link slot hs
      refine Spec.le (Spec.bind hbranch (j := 2 * (budget - 2)) (n := 14 * (budget - 2))
        (d := budget - 2) fun left work b hopened => Or.inr hopened) ?_ ?_ ?_
      all_goals omega

end Moves

section Work

variable {l c}

/-- The delay slot that a block starts with, if it does, can be lifted there. -/
def Fillable (l : Lifter) (c : CodeWindow) (p : Pending) : Prop :=
  ∀ a, p.delay = some a → ∃ slot, decode? l c a = some slot ∧ slot.1.control = .none

theorem liftAt_eq {addr : UInt64} {slot : Mnemonic × Word} (h : decode? l c addr = some slot) :
    liftAt l c addr = (setting l c).lift slot.2 slot.1 := by
  obtain ⟨hfetch, hdecode, -⟩ := decode?_eq_some.mp h
  simp only [liftAt, hfetch, hdecode]

/-- Where the path of a block starts. -/
def entered (l : Lifter) (c : CodeWindow) (p : Pending) (b : Builder) : Builder :=
  match p.delay with
  | some slot => (liftAt l c slot (setBlock p.label b).2).2
  | none => (setBlock p.label b).2

theorem fill_eq (p : Pending) (budget count : Nat) (b : Builder) :
    fill l c p budget count b = follow l c budget count p.addr (entered l c p b) := by
  unfold fill entered
  rw [bind_apply]
  cases p.delay <;> rfl

theorem fillAll_nil {p : Progress} (hp : p.work = []) (steps : Nat) (b : Builder) :
    fillAll l c steps p b = (p, b) := by
  cases steps with
  | zero => rfl
  | succ steps =>
    unfold fillAll
    simp only [hp]
    rfl

theorem fillAll_of_error (p : Progress) (steps : Nat) {b : Builder} (he : b.error.isSome = true) :
    fillAll l c steps p b = (p, b) := by
  cases steps with
  | zero => rfl
  | succ steps =>
    cases hp : p.work with
    | nil => exact fillAll_nil hp _ b
    | cons next rest =>
      unfold fillAll
      simp only [hp]
      rw [bind_apply, get_apply, if_pos he]
      rfl

theorem fillAll_cons {p : Progress} {next : Pending} {rest : List Pending}
    (hp : p.work = next :: rest) (steps : Nat) {b : Builder} (he : b.error = none) :
    fillAll l c (steps + 1) p b =
      fillAll l c steps
        { (fill l c next p.budget p.count b).1 with
          work := (fill l c next p.budget p.count b).1.work ++ rest }
        (fill l c next p.budget p.count b).2 := by
  rw [fillAll]
  simp only [hp]
  rw [bind_apply, get_apply, if_neg (by simp [he])]
  rfl

/-- What holds of the progress whenever a block is about to be filled. -/
structure Feasible (l : Lifter) (c : CodeWindow) (steps : Nat) (p : Progress) : Prop where
  steps : p.work.length + p.budget ≤ steps
  fillable : ∀ q ∈ p.work, Fillable l c q

theorem Feasible.next {steps : Nat} {p : Progress} (h : Feasible l c (steps + 1) p)
    {next : Pending} {rest : List Pending} (hp : p.work = next :: rest) (b : Builder) :
    Feasible l c steps { (fill l c next p.budget p.count b).1 with
      work := (fill l c next p.budget p.count b).1.work ++ rest } := by
  rw [fill_eq]
  have hadv := (follow_advanced (l := l) (c := c) p.budget p.count next.addr
    (entered l c next b)).1
  refine ⟨?_, fun q hq => ?_⟩
  · have hsteps := h.steps
    have hwork := hadv.work
    simp only [hp, length_cons, length_append] at hsteps ⊢
    omega
  · rcases mem_append.mp hq with hq | hq
    · exact hadv.delay q hq
    · exact h.fillable q (hp ▸ mem_cons_of_mem next hq)

/-- Budget turns into lifted instructions. -/
theorem fillAll_count (steps : Nat) (p : Progress) (b : Builder) :
    p.count ≤ (fillAll l c steps p b).1.count ∧
      (fillAll l c steps p b).1.budget + (fillAll l c steps p b).1.count = p.budget + p.count := by
  induction steps generalizing p b with
  | zero => exact ⟨le_rfl, rfl⟩
  | succ steps ih =>
    cases hp : p.work with
    | nil =>
      rw [fillAll_nil hp]
      exact ⟨le_rfl, rfl⟩
    | cons next rest =>
      cases he : b.error with
      | some e =>
        rw [fillAll_of_error p _ (by simp [he])]
        exact ⟨le_rfl, rfl⟩
      | none =>
        rw [fillAll_cons hp steps he, fill_eq]
        have hadv := (follow_advanced (l := l) (c := c) p.budget p.count next.addr (entered l c next b)).1
        obtain ⟨hcount, htotal⟩ := ih { (follow l c p.budget p.count next.addr (entered l c next b)).1 with
          work := (follow l c p.budget p.count next.addr (entered l c next b)).1.work ++ rest }
          (follow l c p.budget p.count next.addr (entered l c next b)).2
        exact ⟨hadv.count_le.trans hcount, htotal.trans hadv.total⟩

section Typing

variable (hw : c.width = Ty.i32 ∨ c.width = Ty.i64) {w : Terms} {left : Allowance}
  {waiting : List Waiting}
include hw

theorem entered_ready {p : Pending} (hp : Fillable l c p) {k : Nat} {Γ : List Value}
    (hk : p.label = k) {b : Builder}
    (hb : Underway w (left.plus 0 (if p.delay.isSome then 14 else 0) 0) (⟨k, Γ⟩ :: waiting) none b) :
    (site c w waiting k).Stuck (entered l c p b) ∨
      (site c w waiting k).Ready left Γ (entered l c p b) := by
  have hat : (setting l c).At (site c w waiting k) := setting_at hw
  have hready : (site c w waiting k).Ready (left.plus 0 (if p.delay.isSome then 14 else 0) 0) Γ
      (setBlock p.label b).2 := by
    rw [hk]
    exact hb.setBlock count c.width
  unfold entered
  cases hdelay : p.delay with
  | none =>
    rw [hdelay] at hready
    exact Or.inr hready
  | some a =>
    obtain ⟨slot, hslot, -⟩ := hp a hdelay
    have hs := (decode?_eq_some.mp hslot).2.2
    rw [hdelay] at hready
    dsimp only
    rw [liftAt_eq hslot]
    exact hat.lift slot.2 (isSupported_is64 hs) _ _ hready

variable (hl : w.callee = l.exception)
include hl

theorem opens_fill {p : Pending} (hp : Fillable l c p) {k : Nat} {Γ : List Value}
    (hk : p.label = k) (budget count : Nat) {b : Builder}
    (hb : Underway w ((funded left budget).plus 0 p.cost 2) (⟨k, Γ⟩ :: waiting) none b) :
    (site c w waiting k).Stuck (fill l c p budget count b).2 ∨
      Opened w (funded left (fill l c p budget count b).1.budget) waiting
        (fill l c p budget count b).1.work (fill l c p budget count b).2 := by
  have hb' : Underway w ((left.plus (2 * budget) (14 * budget + 2) (budget + 2)).plus 0
      (if p.delay.isSome then 14 else 0) 0) (⟨k, Γ⟩ :: waiting) none b := by
    refine hb.of_le ?_ ?_ ?_
    all_goals simp only [Allowance.plus, Pending.cost]; omega
  rw [fill_eq]
  rcases entered_ready hw hp hk hb' with hstuck | hready
  · exact Or.inl (hstuck.keeps _)
  · exact opens_follow hw hl budget count p.addr _ _ hready

/-- The next block, and what waits when it has been filled. What the others cost is kept for them. -/
theorem opens_next {steps : Nat} {p : Progress} (hp : Feasible l c (steps + 1) p) {next : Pending}
    {rest : List Pending} (hwork : p.work = next :: rest) {b : Builder}
    (hb : Opened w (funded left p.budget) [] p.work b) :
    ∃ (k : Nat) (Γ : List Value) (ws : List Waiting) (left' : Allowance), next.label = k ∧
      Underway w left' (⟨k, Γ⟩ :: ws) none b ∧
      ((site c w [] 0).Stuck (fill l c next p.budget p.count b).2 ∨
        Opened w (funded left (fill l c next p.budget p.count b).1.budget) []
          ((fill l c next p.budget p.count b).1.work ++ rest) (fill l c next p.budget p.count b).2) := by
  obtain ⟨ws, hws, hunder⟩ := hb
  rw [hwork, map_cons, eq_comm, map_eq_cons_iff] at hws
  obtain ⟨⟨k, Γ⟩, ws', rfl, hk, hws'⟩ := hws
  rw [append_nil] at hunder
  have hnext : Underway w ((funded (left.plus 0 (rest.map Pending.cost).sum (2 * rest.length))
      p.budget).plus 0 next.cost 2) (⟨k, Γ⟩ :: ws') none b := by
    refine hunder.of_le ?_ ?_ ?_
    all_goals
      simp only [Allowance.plus, hwork, map_cons, sum_cons, length_cons]
      omega
  refine ⟨k, Γ, ws', _, hk.symm, hunder, ?_⟩
  rcases opens_fill hw hl (hp.fillable next (by simp [hwork])) hk.symm p.budget p.count hnext with
    hstuck | ⟨opened, hopened, hunder'⟩
  · exact Or.inl (stuck_site hstuck)
  · refine Or.inr ⟨opened ++ ws', by simp only [map_append, hopened, hws'], ?_⟩
    rw [append_nil]
    refine hunder'.of_le ?_ ?_ ?_
    all_goals
      simp only [Allowance.plus, map_append, sum_append, length_append]
      omega

/-- When no block is left to be filled the graph is finished. -/
theorem fillAll_finishes {steps : Nat} {p : Progress} (hp : Feasible l c steps p) {b : Builder}
    (hb : Opened w (funded left p.budget) [] p.work b) :
    (site c w [] 0).Stuck (fillAll l c steps p b).2 ∨
      (fillAll l c steps p b).1.work = [] ∧ Underway w left [] none (fillAll l c steps p b).2 := by
  have hdone {p : Progress} {b : Builder} (hnil : p.work = [])
      (hb : Opened w (funded left p.budget) [] p.work b) : Underway w left [] none b := by
    obtain ⟨ws, hws, hunder⟩ := hb
    rw [hnil, map_nil, eq_comm, map_eq_nil_iff] at hws
    subst hws
    exact hunder.of_le (by simp [Allowance.plus]) (by simp [Allowance.plus, hnil])
      (by simp [Allowance.plus, hnil])
  induction steps generalizing p b with
  | zero =>
    have hnil : p.work = [] := eq_nil_of_length_eq_zero (by have := hp.steps; omega)
    rw [fillAll_nil hnil]
    exact Or.inr ⟨hnil, hdone hnil hb⟩
  | succ steps ih =>
    cases hwork : p.work with
    | nil =>
      rw [fillAll_nil hwork]
      exact Or.inr ⟨hwork, hdone hwork hb⟩
    | cons next rest =>
      obtain ⟨k, Γ, ws, left', -, hunder, hnext⟩ := opens_next hw hl hp hwork hb
      rw [fillAll_cons hwork steps hunder.error]
      rcases hnext with hstuck | hopened
      · obtain ⟨e, he, -⟩ := id hstuck
        rw [fillAll_of_error _ _ (by simp [he])]
        exact Or.inl hstuck
      · exact ih (hp.next hwork b) hopened

end Typing

end Work

end Region

end Dynarec.Guest
