import Dynarec.Guest.Region
import Dynarec.Proofs.Guest.LiftTyping

/-!
# The moves of a path

What lifting does at an address depends on the instruction there, on its delay slot and on the budget,
and not on the builder. `move` says which of seven moves a path makes, `Move.build` what the move
appends, and a path is its first move followed by the rest. Everything that is proved of paths is proved
move by move.
-/
namespace Dynarec.Guest

open Builder

namespace Region

/-- What a path does at an address. -/
inductive Move where
  | stop
  | plain (w : Word) (m : Mnemonic)
  | exceptionReturn
  | exception (cause : UInt64)
  | jump (w : Word) (link : Bool) (slot : Mnemonic × Word)
  | jumpRegister (w : Word) (link : Bool) (slot : Mnemonic × Word)
  | branch (w : Word) (test : Test) (likely link : Bool) (slot : Mnemonic × Word)

variable (l : Lifter) (c : CodeWindow)

def move (budget : Nat) (addr : UInt64) : Move :=
  match decode? l c addr with
  | none => .stop
  | some (m, w) =>
      if budget = 0 then .stop
      else
        match m.control, delaySlot? l c addr with
        | .none, _ => .plain w m
        | .exceptionReturn, _ => .exceptionReturn
        | .exception cause, _ => .exception cause
        | .jump link, some slot => if budget < 2 then .stop else .jump w link slot
        | .jumpRegister link, some slot => if budget < 2 then .stop else .jumpRegister w link slot
        | .branch test likely link, some slot =>
            if budget < 2 then .stop else .branch w test likely link slot
        | _, none => .stop

def writeLink (link : Bool) (n : Nat) (addr : UInt64) : Build Unit :=
  if link then Setting.setReg n (Value.lit c.width (c.cut (addr + 8))) else pure ()

/-- The blocks of a branch that was built, taken side first. -/
def sides (w : Word) (addr : UInt64) (likely : Bool) (notTaken taken : Int) :
    Build (List Pending) := do
  if (← get).error.isSome then return []
  return [⟨taken, c.cut (addr + 4 + w.branchOffset), if likely then some (addr + 4) else none⟩,
    ⟨notTaken, c.cut (addr + 8), none⟩]

def jumpTarget (w : Word) (addr : UInt64) : UInt64 :=
  c.cut (((addr + 4) &&& ~~~0x0fffffff) ||| w.target)

def leaveTo (address : Nat) (status : Value) (level : UInt64) : Build Unit := do
  write Register.pc (← read (Register.system address) c.width)
  write (Register.system Register.status)
    (← binop .and status (Value.lit c.width (~~~level)))
  exit

/-- Both sides of a return, in the blocks that were opened for them. -/
def returnSides (status : Value) (fromException fromError : Int) : Build Unit := do
  setBlock fromError
  leaveTo c Register.errorEpc status State.errorLevel
  setBlock fromException
  leaveTo c Register.epc status State.exceptionLevel

theorem liftReturn_eq : liftReturn c = (do
    let status ← read (Register.system Register.status) c.width
    let bit ← binop .and status (Value.lit c.width State.errorLevel)
    let isError ← icmp .ne bit (Value.lit c.width 0)
    let fromException ← newBlock
    let fromError ← newBlock
    br isError fromException fromError
    returnSides c status fromException fromError) := rfl

theorem liftBranch_eq (w : Word) (addr : UInt64) (test : Test) (likely link : Bool)
    (slot : Mnemonic × Word) : liftBranch l c w addr test likely link slot = (do
      let cond ← (setting l c).test w test
      writeLink c link 31 addr
      (if likely then pure () else (setting l c).lift slot.2 slot.1 : Build Unit)
      let notTaken ← newBlock
      let taken ← newBlock
      br cond notTaken taken
      sides c w addr likely notTaken taken) := by
  unfold liftBranch writeLink
  cases likely <;> cases link <;> rfl

def Move.build (budget count : Nat) (addr : UInt64) : Move → Build Progress
  | .stop => do
      leave c addr
      return { budget, count }
  | .plain w m => do
      (setting l c).lift w m
      follow l c (budget - 1) (count + 1) (c.cut (addr + 4))
  | .exceptionReturn => do
      liftReturn c
      return { budget := budget - 1, count := count + 1 }
  | .exception cause => do
      liftException l c cause addr
      return { budget := budget - 1, count := count + 1 }
  | .jump w link slot => do
      writeLink c link 31 addr
      (setting l c).lift slot.2 slot.1
      follow l c (budget - 2) (count + 2) (jumpTarget c w addr)
  | .jumpRegister w link slot => do
      let target ← (setting l c).getReg w.rs
      writeLink c link w.rd addr
      (setting l c).lift slot.2 slot.1
      write Register.pc target
      exit
      return { budget := budget - 2, count := count + 2 }
  | .branch w test likely link slot => do
      let work ← liftBranch l c w addr test likely link slot
      return { budget := budget - 2, count := count + 2, work }

theorem follow_of_error {b : Builder} (he : b.error.isSome = true) (budget count : Nat)
    (addr : UInt64) : follow l c budget count addr b = ({ budget, count }, b) := by
  rw [follow]
  simp only [bind_apply, get_apply, he, if_true]
  rfl

/-- A path is its first move. -/
theorem follow_eq_build {b : Builder} (he : b.error = none) (budget count : Nat) (addr : UInt64) :
    follow l c budget count addr b = (move l c budget addr).build l c budget count addr b := by
  rw [follow]
  simp only [bind_apply, get_apply, he, Option.isSome_none, Bool.false_eq_true, if_false]
  unfold move
  cases decode? l c addr with
  | none => rfl
  | some p =>
    by_cases hzero : budget = 0
    · simp only [hzero, dite_true, if_true]
      rfl
    · simp only [hzero, dite_false, if_false]
      cases p.1.control with
      | none | exceptionReturn | exception cause => rfl
      | jump link | jumpRegister link =>
        cases delaySlot? l c addr with
        | none => rfl
        | some slot =>
          by_cases hb : budget < 2
          · simp only [hb, if_true]
            rfl
          · simp only [hb, if_false]
            cases link <;> rfl
      | branch test likely link =>
        cases delaySlot? l c addr with
        | none => rfl
        | some slot =>
          by_cases hb : budget < 2
          · simp only [hb, if_true]
            rfl
          · simp only [hb, if_false]
            rfl

section Decode

variable {l c}

theorem decode?_eq_some {addr : UInt64} {m : Mnemonic} {w : Word} :
    decode? l c addr = some (m, w) ↔
      c.fetch? addr = some w ∧ w.decode = some m ∧ isSupported l c m = true := by
  unfold decode?
  cases c.fetch? addr with
  | none => simp
  | some w' =>
    cases hd : w'.decode with
    | none =>
      simp only [Option.bind_eq_bind, Option.bind_some, hd, Option.bind_none, Option.some.injEq]
      constructor
      · rintro ⟨⟩
      · rintro ⟨rfl, hw, -⟩
        rw [hd] at hw
        cases hw
    | some m' =>
      simp only [Option.bind_eq_bind, Option.bind_some, hd, Option.some.injEq]
      constructor
      · intro h
        split_ifs at h with hs
        obtain ⟨rfl, rfl⟩ := Prod.mk.inj (Option.some.inj h)
        exact ⟨rfl, hd, hs⟩
      · rintro ⟨rfl, hw, hs⟩
        cases hd.symm.trans hw
        rw [if_pos hs]

theorem delaySlot?_eq_some {addr : UInt64} {slot : Mnemonic × Word} :
    delaySlot? l c addr = some slot ↔
      decode? l c (addr + 4) = some slot ∧ slot.1.control = .none := by
  unfold delaySlot?
  cases decode? l c (addr + 4) with
  | none => simp
  | some p =>
    obtain ⟨m, w⟩ := p
    dsimp only
    split_ifs with hm
    · constructor
      · rintro ⟨⟩
        exact ⟨rfl, hm⟩
      · rintro ⟨h, -⟩
        exact h
    · constructor
      · rintro ⟨⟩
      · rintro ⟨⟨⟩, h⟩
        exact absurd h hm

theorem isSupported_is64 {m : Mnemonic} (h : isSupported l c m = true) :
    m.is64 = true → c.width = Ty.i64 := by
  intro hm
  simp only [isSupported, hm, Bool.and_eq_true] at h
  simpa using h.1

theorem isSupported_exception {m : Mnemonic} (h : isSupported l c m = true) {cause : UInt64}
    (hm : m.control = .exception cause) : ∃ f, l.exception = some f := by
  simp only [isSupported, hm, Bool.and_eq_true] at h
  exact Option.isSome_iff_exists.mp h.2

end Decode

/-- The instruction at `addr` that makes a move, its delay slot and the budget they need. -/
inductive Move.From (budget : Nat) (addr : UInt64) : Move → Prop
  | stop : From budget addr .stop
  | plain {m w} (hdecode : decode? l c addr = some (m, w)) (hm : m.control = .none)
      (hb : 1 ≤ budget) : From budget addr (.plain w m)
  | exceptionReturn {m w} (hdecode : decode? l c addr = some (m, w))
      (hm : m.control = .exceptionReturn) (hb : 1 ≤ budget) : From budget addr .exceptionReturn
  | exception {m w cause} (hdecode : decode? l c addr = some (m, w))
      (hm : m.control = .exception cause) (hb : 1 ≤ budget) : From budget addr (.exception cause)
  | jump {m w link slot} (hdecode : decode? l c addr = some (m, w)) (hm : m.control = .jump link)
      (hslot : decode? l c (addr + 4) = some slot) (hplain : slot.1.control = .none)
      (hb : 2 ≤ budget) : From budget addr (.jump w link slot)
  | jumpRegister {m w link slot} (hdecode : decode? l c addr = some (m, w))
      (hm : m.control = .jumpRegister link) (hslot : decode? l c (addr + 4) = some slot)
      (hplain : slot.1.control = .none) (hb : 2 ≤ budget) :
      From budget addr (.jumpRegister w link slot)
  | branch {m w test likely link slot} (hdecode : decode? l c addr = some (m, w))
      (hm : m.control = .branch test likely link) (hslot : decode? l c (addr + 4) = some slot)
      (hplain : slot.1.control = .none) (hb : 2 ≤ budget) :
      From budget addr (.branch w test likely link slot)

/-- The instruction at `addr` can be lifted: its delay slot, if it has one, is there and can stand
there, and the budget allows both. -/
def Liftable (budget : Nat) (addr : UInt64) : Prop :=
  ∃ m w, decode? l c addr = some (m, w) ∧
    match m.control with
    | .none | .exceptionReturn | .exception _ => 1 ≤ budget
    | .jump _ | .jumpRegister _ | .branch _ _ _ => (delaySlot? l c addr).isSome = true ∧ 2 ≤ budget

theorem move_from (budget : Nat) (addr : UInt64) : (move l c budget addr).From l c budget addr := by
  unfold move
  cases hd : decode? l c addr with
  | none => exact .stop
  | some p =>
    obtain ⟨m, w⟩ := p
    by_cases hzero : budget = 0
    · simp only [hzero, if_true]
      exact .stop
    · simp only [hzero, if_false]
      have hpos : 1 ≤ budget := Nat.one_le_iff_ne_zero.mpr hzero
      cases hm : m.control with
      | none => exact .plain hd hm hpos
      | exceptionReturn => exact .exceptionReturn hd hm hpos
      | exception cause => exact .exception hd hm hpos
      | jump link | jumpRegister link | branch test likely link =>
        cases hslot : delaySlot? l c addr with
        | none => exact .stop
        | some slot =>
          obtain ⟨hdelay, hplain⟩ := delaySlot?_eq_some.mp hslot
          dsimp only
          split_ifs with hb
          · exact .stop
          · constructor <;> first | assumption | exact Nat.not_lt.mp hb

theorem move_eq_stop_iff (budget : Nat) (addr : UInt64) :
    move l c budget addr = .stop ↔ ¬ Liftable l c budget addr := by
  unfold move Liftable
  cases decode? l c addr with
  | none => simp
  | some p =>
    obtain ⟨m, w⟩ := p
    simp only [Option.some.injEq, Prod.mk.injEq]
    by_cases hzero : budget = 0
    · simp only [hzero, if_true, true_iff]
      rintro ⟨_, _, ⟨rfl, rfl⟩, h⟩
      cases hm : m.control <;> simp [hm] at h
    · simp only [hzero, if_false]
      have hpos : 1 ≤ budget := Nat.one_le_iff_ne_zero.mpr hzero
      cases hm : m.control with
      | none | exceptionReturn | exception cause =>
        simp only [reduceCtorEq, false_iff, not_not]
        exact ⟨m, w, ⟨rfl, rfl⟩, by simpa only [hm] using hpos⟩
      | jump link | jumpRegister link | branch test likely link =>
        have hiff (P : Prop) : (∃ m' w', (m = m' ∧ w = w') ∧
            match m'.control with
            | .none | .exceptionReturn | .exception _ => 1 ≤ budget
            | .jump _ | .jumpRegister _ | .branch _ _ _ => P) ↔ P := by
          constructor
          · rintro ⟨_, _, ⟨rfl, rfl⟩, h⟩
            simpa only [hm] using h
          · intro h
            exact ⟨m, w, ⟨rfl, rfl⟩, by simpa only [hm] using h⟩
        rw [hiff]
        cases delaySlot? l c addr with
        | none => simp
        | some slot =>
          by_cases hb : budget < 2
          · simp [hb, Nat.not_le.mpr hb]
          · simp [hb, Nat.not_lt.mp hb]

/-- What a path may do to the progress: budget turns into lifted instructions, a block that is opened
costs budget, and a block that starts with a delay slot starts with one that can be lifted. -/
structure Advanced (budget count : Nat) (p : Progress) : Prop where
  count_le : count ≤ p.count
  total : p.budget + p.count = budget + count
  work : p.work.length + p.budget ≤ budget
  delay : ∀ q ∈ p.work, ∀ a, q.delay = some a →
    ∃ slot, decode? l c a = some slot ∧ slot.1.control = .none

variable {l c}

theorem Advanced.trans {budget count budget' count' : Nat} {p : Progress}
    (h : Advanced l c budget' count' p) (hcount : count ≤ count')
    (htotal : budget' + count' = budget + count) : Advanced l c budget count p where
  count_le := hcount.trans h.count_le
  total := h.total.trans htotal
  work := by
    have := h.work
    omega
  delay := h.delay

theorem advanced_nil {budget count : Nat} (budget' count' : Nat) (hcount : count ≤ count')
    (htotal : budget' + count' = budget + count) : Advanced l c budget count ⟨budget', count', []⟩ where
  count_le := hcount
  total := htotal
  work := by
    simp only [List.length_nil]
    omega
  delay := by simp

theorem sides_cases (w : Word) (addr : UInt64) (likely : Bool) (notTaken taken : Int)
    (b : Builder) : sides c w addr likely notTaken taken b =
      (if b.error.isSome then [] else
        [⟨taken, c.cut (addr + 4 + w.branchOffset), if likely then some (addr + 4) else none⟩,
          ⟨notTaken, c.cut (addr + 8), none⟩], b) := by
  rw [sides, bind_apply, get_apply]
  by_cases he : b.error.isSome = true
  · rw [if_pos he, if_pos he]
    rfl
  · rw [if_neg he, if_neg he]
    rfl

theorem sides_work (w : Word) (addr : UInt64) (likely : Bool) (notTaken taken : Int) (b : Builder) :
    (sides c w addr likely notTaken taken b).1.length ≤ 2 ∧
      ∀ q ∈ (sides c w addr likely notTaken taken b).1, ∀ a, q.delay = some a → a = addr + 4 := by
  rw [sides_cases]
  by_cases he : b.error.isSome = true
  · simp [he]
  · cases likely <;> simp [he]

theorem liftBranch_work (w : Word) (addr : UInt64) (test : Test) (likely link : Bool)
    (slot : Mnemonic × Word) (b : Builder) :
    (liftBranch l c w addr test likely link slot b).1.length ≤ 2 ∧
      ∀ q ∈ (liftBranch l c w addr test likely link slot b).1, ∀ a, q.delay = some a →
        a = addr + 4 := by
  simp only [liftBranch_eq, bind_apply]
  exact sides_work w addr likely _ _ _

theorem follow_advanced (budget count : Nat) (addr : UInt64) (b : Builder) :
    Advanced l c budget count (follow l c budget count addr b).1 ∧
      (b.error = none → Liftable l c budget addr →
        count < (follow l c budget count addr b).1.count) := by
  induction budget using Nat.strong_induction_on generalizing count addr b with
  | _ budget ih =>
    cases he : b.error with
    | some e =>
      rw [follow_of_error l c (by simp [he])]
      exact ⟨advanced_nil _ _ le_rfl rfl, by simp⟩
    | none =>
      rw [follow_eq_build l c he]
      have hfrom := move_from l c budget addr
      have hstop := move_eq_stop_iff l c budget addr
      generalize hmove : move l c budget addr = move at hfrom ⊢
      cases hfrom with
      | stop =>
        simp only [Move.build, bind_apply, pure_apply]
        refine ⟨advanced_nil _ _ le_rfl rfl, fun _ hl => ?_⟩
        exact absurd hl (hstop.mp hmove)
      | @plain m w =>
        simp only [Move.build, bind_apply]
        obtain ⟨hadv, -⟩ := ih (budget - 1) (by omega) (count + 1) (c.cut (addr + 4))
          ((setting l c).lift w m b).2
        refine ⟨hadv.trans (by omega) (by omega), fun _ _ => ?_⟩
        exact Nat.lt_of_lt_of_le (Nat.lt_succ_self count) hadv.count_le
      | exceptionReturn | exception =>
        simp only [Move.build, bind_apply, pure_apply]
        exact ⟨advanced_nil _ _ (by omega) (by omega), fun _ _ => Nat.lt_succ_self count⟩
      | @jump _ w link slot =>
        simp only [Move.build, bind_apply]
        obtain ⟨hadv, -⟩ := ih (budget - 2) (by omega) (count + 2) (jumpTarget c w addr)
          ((setting l c).lift slot.2 slot.1 (writeLink c link 31 addr b).2).2
        refine ⟨hadv.trans (by omega) (by omega), fun _ _ => ?_⟩
        exact Nat.lt_of_lt_of_le (by omega) hadv.count_le
      | jumpRegister =>
        simp only [Move.build, bind_apply, pure_apply]
        exact ⟨advanced_nil _ _ (by omega) (by omega), fun _ _ => by omega⟩
      | @branch _ w test likely link slot _ _ hslot hplain =>
        simp only [Move.build, bind_apply, pure_apply]
        obtain ⟨hlength, hdelay⟩ := liftBranch_work (l := l) (c := c) w addr test likely link slot b
        refine ⟨⟨?_, ?_, ?_, ?_⟩, fun _ _ => by omega⟩
        · exact Nat.le_add_right count 2
        · dsimp only
          omega
        · dsimp only
          omega
        · intro q hq a ha
          obtain rfl := hdelay q hq a ha
          exact ⟨slot, hslot, hplain⟩

end Region

end Dynarec.Guest
