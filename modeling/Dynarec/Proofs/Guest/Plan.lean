import Dynarec.Proofs.Guest.Decode
import Dynarec.Proofs.Guest.RegionTyping

/-!
# The plan of a region

Which blocks are filled, in which order and with which moves, is settled before anything runs: it depends
on the code and on the budget alone. `path` lists the moves of a path and `plan` the blocks of a region.
What a region does to a processor can then be said without its graph: `travel` follows a path, and `tour`
goes through the plan with the place where the run waits.
-/
namespace Dynarec.Guest

open Builder

/-- Where the code of a block starts, and the delay slot in front of it, if any. -/
structure Side where
  addr : UInt64
  delay : Option UInt64
deriving DecidableEq

def Pending.side (q : Pending) : Side :=
  ⟨q.addr, q.delay⟩

namespace Region

namespace Move

def cost : Move → Nat
  | .stop => 0
  | .plain _ _ | .exceptionReturn | .exception _ => 1
  | .jump _ _ _ | .jumpRegister _ _ _ | .branch _ _ _ _ _ => 2

/-- Where the path goes on behind a move. -/
def next (c : CodeWindow) (addr : UInt64) : Move → Option UInt64
  | .plain _ _ => some (c.cut (addr + 4))
  | .jump w _ _ => some (jumpTarget c w addr)
  | _ => none

/-- The blocks that a move opens, taken side first. -/
def sides (c : CodeWindow) (addr : UInt64) : Move → List Side
  | .branch w _ likely _ _ =>
      [⟨c.cut (addr + 4 + w.branchOffset), if likely then some (addr + 4) else none⟩,
        ⟨c.cut (addr + 8), none⟩]
  | _ => []

theorem cost_pos {c : CodeWindow} {addr a : UInt64} {m : Move} (h : m.next c addr = some a) :
    1 ≤ m.cost := by
  cases m with
  | plain w m => exact Nat.le_refl 1
  | jump w link slot => exact Nat.le_succ 1
  | _ => cases h

end Move

/-- The moves of a path, with their addresses. -/
abbrev Path := List (UInt64 × Move)

def Path.cost (p : Path) : Nat :=
  (p.map fun q => q.2.cost).sum

def Path.sides (c : CodeWindow) (p : Path) : List Side :=
  p.flatMap fun q => q.2.sides c q.1

@[simp] theorem Path.cost_nil : Path.cost [] = 0 := rfl

@[simp] theorem Path.cost_cons (q : UInt64 × Move) (p : Path) :
    Path.cost (q :: p) = q.2.cost + p.cost := rfl

@[simp] theorem Path.sides_nil (c : CodeWindow) : Path.sides c [] = [] := rfl

@[simp] theorem Path.sides_cons (c : CodeWindow) (q : UInt64 × Move) (p : Path) :
    Path.sides c (q :: p) = q.2.sides c q.1 ++ p.sides c := rfl

variable (l : Lifter) (c : CodeWindow)

theorem move_cost_le (budget : Nat) (addr : UInt64) : (move l c budget addr).cost ≤ budget := by
  have hfrom := move_from l c budget addr
  generalize move l c budget addr = move at hfrom ⊢
  cases hfrom with
  | stop => exact Nat.zero_le budget
  | _ => assumption

def path (budget : Nat) (addr : UInt64) : Path :=
  (addr, move l c budget addr) ::
    match _h : (move l c budget addr).next c addr with
    | none => []
    | some a => path (budget - (move l c budget addr).cost) a
termination_by budget
decreasing_by
  have hpos := Move.cost_pos _h
  have hle := move_cost_le l c budget addr
  omega

theorem path_eq (budget : Nat) (addr : UInt64) : path l c budget addr =
    (addr, move l c budget addr) ::
      ((move l c budget addr).next c addr).elim []
        (path l c (budget - (move l c budget addr).cost)) := by
  rw [path]
  split
  · rename_i h
    rw [h]
    rfl
  · rename_i a h
    rw [h]
    rfl

/-- A block of a region: the delay slot at its head, if any, and its path. -/
structure Leg where
  slot : Option (Mnemonic × Word)
  path : Path

/-- The blocks in the order in which they are filled. -/
def plan : (steps budget : Nat) → List Side → List Leg
  | 0, _, _ => []
  | _ + 1, _, [] => []
  | steps + 1, budget, s :: rest =>
      let p := path l c budget s.addr
      ⟨s.delay.bind (decode? l c), p⟩ :: plan steps (budget - p.cost) (p.sides c ++ rest)

variable {l c}

/-- A path that is built makes the progress that its moves say. -/
theorem follow_progress {budget count : Nat} {addr : UInt64} {b : Builder}
    (he : (follow l c budget count addr b).2.error = none) :
    (follow l c budget count addr b).1.budget + (path l c budget addr).cost = budget ∧
      (follow l c budget count addr b).1.work.map Pending.side =
        (path l c budget addr).sides c := by
  induction budget using Nat.strong_induction_on generalizing count addr b with
  | _ budget ih =>
    have hb₀ := Keeps.error_eq_none (follow l c budget count addr) he
    rw [follow_eq_build l c hb₀] at he ⊢
    have hfrom := move_from l c budget addr
    rw [path_eq, Path.cost_cons, Path.sides_cons]
    generalize move l c budget addr = move at hfrom he ⊢
    cases hfrom with
    | stop => exact ⟨rfl, rfl⟩
    | plain =>
      simp only [Move.build, bind_apply] at he ⊢
      obtain ⟨hbudget, hsides⟩ := ih (budget - 1) (by omega) he
      exact ⟨by simp only [Move.cost, Move.next, Option.elim_some]; omega, hsides⟩
    | exceptionReturn _ _ hb | exception _ _ hb | jumpRegister _ _ _ _ hb =>
      simp only [Move.build, bind_apply, pure_apply]
      exact ⟨Nat.sub_add_cancel hb, rfl⟩
    | jump =>
      simp only [Move.build, bind_apply] at he ⊢
      obtain ⟨hbudget, hsides⟩ := ih (budget - 2) (by omega) he
      exact ⟨by simp only [Move.cost, Move.next, Option.elim_some]; omega, hsides⟩
    | branch _ _ _ _ hb =>
      simp only [Move.build, bind_apply, pure_apply] at he ⊢
      refine ⟨Nat.sub_add_cancel hb, ?_⟩
      simp only [liftBranch_eq, bind_apply, sides_cases] at he ⊢
      rw [if_neg (by rw [he]; simp)]
      rfl

end Region

/-- Where a run is while the blocks of a region are filled: it is over, or the bus refused an access, or
it waits at the head of one of the blocks that are still to be filled. -/
inductive Landing (n : Nat) (μ : Type) where
  | ended (M : Processor n μ)
  | refused (p : RunCause × Core n μ)
  | waits (k : Nat) (d : Core n μ)

namespace Region

variable {n : Nat} {μ : Type} (B : Board n μ)

/-- The processor in front of the code at an address. -/
def facing (d : Core n μ) (addr : UInt64) : Processor n μ :=
  ⟨d, addr.toBitVec.setWidth n, none⟩

/-- Executes an instruction that does not transfer control, and goes on. -/
def perform (slot : Mnemonic × Word) (d : Core n μ) (onward : Core n μ → Landing n μ) :
    Landing n μ :=
  match Encoding.exec B slot.1 slot.2.code d with
  | some d' => onward d'
  | none => .refused (Encoding.refusal B slot.1 slot.2.code d)

/-- What the moves of a path do. -/
def travel : Path → Core n μ → Landing n μ
  | [], d => .waits 0 d
  | (addr, .stop) :: _, d => .ended (facing d addr)
  | (_, .plain w m) :: rest, d => perform B (m, w) d (travel rest)
  | (addr, .exceptionReturn) :: _, d => .ended (facing d addr).exceptionReturn
  | (addr, .exception cause) :: _, d => .ended ((facing d addr).exception (.ofNat _ cause.toNat))
  | (addr, .jump _ link slot) :: rest, d => perform B slot ((facing d addr).link link 31) (travel rest)
  | (addr, .jumpRegister w link slot) :: _, d =>
      perform B slot ((facing d addr).link link w.rd) fun d' => .ended ⟨d', d.get w.rs, none⟩
  | (addr, .branch w test likely link slot) :: _, d =>
      let side := if test.onBits (d.get w.rs) (d.get w.rt) then 0 else 1
      let d' := (facing d addr).link link 31
      if likely then .waits side d' else perform B slot d' (.waits side)

/-- What a block does from its head on. -/
def Leg.travel (x : Leg) (d : Core n μ) : Landing n μ :=
  match x.slot with
  | none => Region.travel B x.path d
  | some slot => perform B slot d (Region.travel B x.path)

/-- The next block is filled: a run that waits there goes through it, and the blocks it opens stand in
front of the others. -/
def Leg.pass (c : CodeWindow) (x : Leg) : Landing n μ → Landing n μ
  | .waits 0 d => x.travel B d
  | .waits (k + 1) d => .waits (k + (x.path.sides c).length) d
  | L => L

/-- What the blocks of a plan do to a run that waits at one of them. -/
def tour (c : CodeWindow) (legs : List Leg) (L : Landing n μ) : Landing n μ :=
  legs.foldl (fun L x => x.pass B c L) L

end Region

/-- What a region does to a processor in front of it. -/
def Lifter.journey (l : Lifter) (c : CodeWindow) {n : Nat} {μ : Type} (B : Board n μ)
    (d : Core n μ) : Landing n μ :=
  Region.tour B c (Region.plan l c (l.budget + 1) l.budget [⟨c.start, none⟩]) (.waits 0 d)

end Dynarec.Guest
