import Dynarec.Proofs.Guest.TypeSoundness
import Dynarec.Settings.Basic

/-!
# Regions stay within the arenas

What a region takes of the arenas is bounded by its budget alone, whatever its code is: the terms of
lifting are kept to the end, whether it succeeds or not. So arenas that hold what the budget pays for are
never full.
-/
namespace Dynarec.Guest.Lifter

open Builder

variable (l : Lifter) {space : Workspace} (addr : UInt64) (code : List UInt8)

theorem count_filled_le : (l.filled space addr code).1.count ≤ l.budget := by
  have htotal := (Region.fillAll_count (l := l) (c := window space addr code) (l.budget + 1)
    (l.outset space addr code) (Builder.start space)).2
  have hstart : (l.outset space addr code).budget + (l.outset space addr code).count = l.budget := rfl
  rw [hstart] at htotal
  exact (Nat.le_add_left _ _).trans htotal.le

section Bound

variable {s : State} {t : Ty} (hs : s.Bound t space)
include hs

theorem lift_leaves : (l.terms space).Leaves {} (l.lift space addr code).2.used := by
  have hw : (space.binding 1).ty = Ty.i32 ∨ (space.binding 1).ty = Ty.i64 := hs.ty_one ▸ hs.width
  have hspace : (l.lift space addr code).2 = (l.filled space addr code).2.space := by
    rw [lift_of_width l addr code hw, handOut]
    split
    · rfl
    · split_ifs <;> rfl
  rw [hspace]
  rcases l.filled_finishes addr code hw with ⟨-, -, hleaves, -⟩ | hunder
  · exact hleaves
  · exact hunder.leaves

theorem lift_of_fits (hfits : (l.terms space).Fits) {e : LiftError}
    (he : (l.lift space addr code).1 = .error e) : e.report.fault ≠ some .capacityExceeded := by
  have hone := hs.ty_one
  rcases l.lift_error addr code hs he with ⟨-, herror⟩ | ⟨hfault, -⟩
  · -- only arenas that are full stop lifting over a bound state
    rcases l.filled_finishes addr code (hone ▸ hs.width) with ⟨-, -, -, ⟨-, hfull⟩ | hwidths⟩ | hunder
    · exact absurd hfits hfull
    · refine absurd ?_ hwidths
      change space.Uniform Register.count (space.binding 1).ty
      rw [hone]
      exact hs.uniform
    · exact absurd hunder.error herror
  · rw [hfault]
    simp

end Bound

/-- What a budget of `m` instructions pays for. -/
def paidFor (m : Nat) : Arenas :=
  ⟨2 * m + 1, 14 * m + 2, 2 * ((m + 2) / 3)⟩

/-- Over a state that was bound in a workspace, which is then reset, lifting comes to an end, lifts at most
as many instructions as its budget has and takes at most what these pay for. It does not fail for want of
room if the arenas hold as much, which those of the default settings do for the default budget. -/
theorem lift_bounded (l : Lifter) {s : State} {t : Ty} {w₀ w : Workspace} (hbind : s.bind w₀ t = .ok w)
    (addr : UInt64) (code : List UInt8) :
    let space := w.reset
    let d : Settings := {}
    (∀ m : Nat, 1 ≤ m → l.maxInstructions = m →
      l.lift? space addr code = some (l.lift space addr code) ∧
      (l.filled space addr code).1.count ≤ m ∧
      (l.lift space addr code).2.used.blocks ≤ (paidFor m).blocks ∧
      (l.lift space addr code).2.used.instrs ≤ (paidFor m).instrs ∧
      (l.lift space addr code).2.used.params ≤ (paidFor m).params ∧
      ((paidFor m).blocks ≤ w.capacity.blocks → (paidFor m).instrs ≤ w.capacity.instrs →
        (paidFor m).params ≤ w.capacity.params → ∀ e, (l.lift space addr code).1 = .error e →
          e.report.fault ≠ some .capacityExceeded)) ∧
    (l.maxInstructions = d.guest.maxInstructions →
      Workspace.create d.space.registers d.space.blocks d.space.instructions d.space.params = .ok w₀ →
      ∀ e, (l.lift space addr code).1 = .error e → e.report.fault ≠ some .capacityExceeded) := by
  intro space d
  obtain ⟨hbound, hcapacity, -⟩ := State.bind_eq_ok hbind
  have hs : s.Bound t space := ⟨hbound.width, hbound.zero, hbound.binding, hbound.cell⟩
  have hused : space.used = {} := rfl
  have hbudget {m : Nat} (hm : 1 ≤ m) (hl : l.maxInstructions = m) : l.budget = m := by
    rw [budget, if_neg (by omega)]
    omega
  have hfits {m : Nat} (hm : 1 ≤ m) (hl : l.maxInstructions = m)
      (hblocks : (paidFor m).blocks ≤ w.capacity.blocks)
      (hinstrs : (paidFor m).instrs ≤ w.capacity.instrs)
      (hparams : (paidFor m).params ≤ w.capacity.params) : (l.terms space).Fits := by
    simp only [paidFor] at hblocks hinstrs hparams
    constructor <;> simp only [terms, hbudget hm hl, hused, Nat.zero_add] <;> assumption
  constructor
  · intro m hm hl
    have hbudget := hbudget hm hl
    obtain ⟨hblocks, hinstrs, calls, hparams, hcalls⟩ := l.lift_leaves addr code hs
    simp only [terms, hbudget, hused] at hblocks hinstrs hparams hcalls
    refine ⟨l.lift?_eq space addr code, hbudget ▸ l.count_filled_le addr code, ?_, ?_, ?_,
      fun hb hi hp e he => l.lift_of_fits addr code hs (hfits hm hl hb hi hp) he⟩
    all_goals
      simp only [paidFor]
      omega
  · intro hl hcreate e he
    have hdefault : w.capacity = ⟨1024, 8192, 256⟩ := by
      rw [hcapacity]
      unfold Workspace.create at hcreate
      split_ifs at hcreate
      obtain rfl := Except.ok.inj hcreate
      rfl
    refine l.lift_of_fits addr code hs (hfits (m := 256) (by decide) hl ?_ ?_ ?_) he
    all_goals
      rw [hdefault]
      decide

/-- A budget of three instructions, in arenas that hold what it pays for. -/
theorem lift_bounded_likely :
    let l : Lifter := { maxInstructions := 3, exception := some ⟨"exception", 0⟩ }
    State.bind ⟨0x1000⟩ smallSpace Ty.i64 = .ok boundSpace ∧ paidFor 3 = ⟨7, 44, 2⟩ ∧
      boundSpace.capacity = ⟨8, 64, 4⟩ ∧ (l.lift boundSpace.reset 0x400 likelyCode).2.used.blocks ≤ 7 ∧
      ∀ e, (l.lift boundSpace.reset 0x400 likelyCode).1 = .error e →
        e.report.fault ≠ some .capacityExceeded := by
  intro l
  obtain ⟨-, -, hblocks, -, -, hroom⟩ :=
    (lift_bounded l bind_smallSpace 0x400 likelyCode).1 3 (by decide) rfl
  have hcapacity : boundSpace.capacity = ⟨8, 64, 4⟩ := (State.bind_eq_ok bind_smallSpace).2.1
  refine ⟨bind_smallSpace, rfl, hcapacity, hblocks, hroom ?_ ?_ ?_⟩
  all_goals
    rw [hcapacity]
    decide

end Dynarec.Guest.Lifter
