import Dynarec.Guest.State
import Dynarec.Proofs.Graph.Typing

/-!
# Bound register files

Binding a register changes the binding of that register and nothing else. So after a state was bound
every register but the first has its own cell at the width of the state.
-/
namespace Dynarec

namespace Workspace

variable {w w' : Workspace} {id : Int} {t : Ty} {name : String} {cell : UInt64}

theorem bind_eq_ok (h : w.bind id t name cell = .ok w') :
    (0 ≤ id ∧ id < w.registers) ∧ (t ≠ Ty.void → cell ≠ 0) ∧
      w' = { w with bindings := (w.bindings ++ Array.replicate (id.toNat + 1 - w.bindings.size)
        default).setIfInBounds id.toNat ⟨t, name, cell⟩ } := by
  unfold Workspace.bind at h
  split_ifs at h with hrange hty hcell
  refine ⟨by omega, ?_, ?_⟩
  · rintro ht rfl
    exact hcell ⟨ht, rfl⟩
  · simpa using h.symm

theorem binding_bind_self (h : w.bind id t name cell = .ok w') :
    w'.binding id = ⟨t, name, cell⟩ := by
  obtain ⟨⟨hnat, -⟩, -, rfl⟩ := bind_eq_ok h
  obtain ⟨n, rfl⟩ := Int.eq_ofNat_of_zero_le hnat
  have hlt : n < (w.bindings ++ Array.replicate (n + 1 - w.bindings.size) default).size := by
    simp only [Array.size_append, Array.size_replicate]
    omega
  simp only [Workspace.binding, entryAt?_natCast, Int.toNat_natCast]
  rw [Array.getElem?_setIfInBounds_self_of_lt hlt]
  rfl

theorem binding_bind_of_ne (h : w.bind id t name cell = .ok w') {j : Int} (hj : j ≠ id) :
    w'.binding j = w.binding j := by
  obtain ⟨⟨hnat, -⟩, -, rfl⟩ := bind_eq_ok h
  obtain ⟨n, rfl⟩ := Int.eq_ofNat_of_zero_le hnat
  rcases lt_or_ge j 0 with hneg | hpos
  · simp [Workspace.binding, entryAt?, hneg]
  · obtain ⟨k, rfl⟩ := Int.eq_ofNat_of_zero_le hpos
    simp only [Workspace.binding, entryAt?_natCast, Int.toNat_natCast]
    rw [Array.getElem?_setIfInBounds_ne (by omega), Array.getElem?_append]
    split_ifs with hlt
    · rfl
    · rw [Array.getElem?_eq_none (Nat.not_lt.mp hlt), Array.getElem?_replicate]
      split_ifs <;> rfl

end Workspace

namespace Guest.State

variable {s : State} {t : Ty}

theorem bindFrom_eq_ok {ids : List Nat} (hids : ids.Nodup) {w w' : Workspace}
    (h : s.bindFrom t w ids = .ok w') :
    (∀ id ∈ ids, w'.binding id = if id = 0 then ⟨Ty.void, Register.name 0, 0⟩ else
      ⟨t, Register.name id, s.cell id⟩) ∧ (t ≠ Ty.void → ∀ id ∈ ids, id ≠ 0 → s.cell id ≠ 0) ∧
    (∀ id : Nat, id ∉ ids → w'.binding id = w.binding id) ∧
    w'.capacity = w.capacity ∧ w'.used = w.used ∧ w'.registers = w.registers := by
  induction ids generalizing w with
  | nil =>
    obtain rfl : w = w' := by simpa [bindFrom] using h
    simp
  | cons id rest ih =>
    rw [List.nodup_cons] at hids
    obtain ⟨w₁, hbind, hrest⟩ : ∃ w₁, (if id = 0 then w.bind 0 Ty.void (Register.name 0) 0 else
        w.bind id t (Register.name id) (s.cell id)) = .ok w₁ ∧ s.bindFrom t w₁ rest = .ok w' := by
      rw [bindFrom] at h
      split_ifs at h ⊢ <;> exact Except.bind_eq_ok.mp h
    obtain ⟨hin, hcell, hout, hsame⟩ := ih hids.2 hrest
    have hstep : w₁.binding id = (if id = 0 then ⟨Ty.void, Register.name 0, 0⟩ else
        ⟨t, Register.name id, s.cell id⟩) ∧ (t ≠ Ty.void → id ≠ 0 → s.cell id ≠ 0) ∧
        (∀ j : Nat, j ≠ id → w₁.binding j = w.binding j) ∧
        w₁.capacity = w.capacity ∧ w₁.used = w.used ∧ w₁.registers = w.registers := by
      split_ifs at hbind ⊢ with hz
      · subst hz
        refine ⟨Workspace.binding_bind_self hbind, by simp, fun j hj => ?_, ?_⟩
        · exact Workspace.binding_bind_of_ne hbind (by omega)
        · obtain ⟨-, -, rfl⟩ := Workspace.bind_eq_ok hbind
          exact ⟨rfl, rfl, rfl⟩
      · refine ⟨Workspace.binding_bind_self hbind, fun ht _ => ?_, fun j hj => ?_, ?_⟩
        · exact (Workspace.bind_eq_ok hbind).2.1 ht
        · exact Workspace.binding_bind_of_ne hbind (by omega)
        · obtain ⟨-, -, rfl⟩ := Workspace.bind_eq_ok hbind
          exact ⟨rfl, rfl, rfl⟩
    obtain ⟨hself, hself', hother, hcap, hused, hregs⟩ := hstep
    refine ⟨fun j hj => ?_, fun ht j hj hj0 => ?_, fun j hj => ?_, ?_⟩
    · rcases List.mem_cons.mp hj with rfl | hj
      · rw [hout j hids.1, hself]
      · exact hin j hj
    · rcases List.mem_cons.mp hj with rfl | hj
      · exact hself' ht hj0
      · exact hcell ht j hj hj0
    · rw [List.mem_cons, not_or] at hj
      rw [hout j hj.2, hother j hj.1]
    · rw [hsame.1, hsame.2.1, hsame.2.2]
      exact ⟨hcap, hused, hregs⟩

/-- The registers of a state are bound at a width. -/
structure Bound (s : State) (t : Ty) (w : Workspace) : Prop where
  width : t = Ty.i32 ∨ t = Ty.i64
  zero : w.binding 0 = ⟨Ty.void, Register.name 0, 0⟩
  binding : ∀ {id : Nat}, id ≠ 0 → id < Register.count →
    w.binding id = ⟨t, Register.name id, s.cell id⟩
  cell : ∀ {id : Nat}, id ≠ 0 → id < Register.count → s.cell id ≠ 0

theorem bind_eq_ok {w w' : Workspace} (h : s.bind w t = .ok w') :
    s.Bound t w' ∧ w'.capacity = w.capacity ∧ w'.used = w.used ∧ w'.registers = w.registers := by
  unfold State.bind at h
  split_ifs at h with hwidth hregs
  have ht : t = Ty.i32 ∨ t = Ty.i64 := by
    by_contra hne
    rw [not_or] at hne
    exact hwidth hne
  have hvoid : t ≠ Ty.void := by
    rcases ht with rfl | rfl <;> decide
  obtain ⟨hin, hcell, -, hsame⟩ := bindFrom_eq_ok List.nodup_range (Except.mapError_eq_ok.mp h)
  simp only [List.mem_range] at hin hcell
  refine ⟨⟨ht, ?_, fun hz hlt => ?_, fun hz hlt => hcell hvoid _ hlt hz⟩, hsame⟩
  · exact hin 0 (by decide)
  · rw [hin _ hlt, if_neg hz]

namespace Bound

variable {w : Workspace} (h : s.Bound t w)
include h

theorem isScalar : t.IsScalar := by
  rcases h.width with rfl | rfl <;> decide

theorem isBound {id : Nat} (hz : id ≠ 0) (hlt : id < Register.count) :
    (w.binding id).isBound = true := by
  have ht : t ≠ Ty.void := by
    rcases h.width with rfl | rfl <;> decide
  simp [h.binding hz hlt, Binding.isBound, ht, h.cell hz hlt]

theorem not_isBound_zero : (w.binding 0).isBound = false := by
  simp [h.zero, Binding.isBound]

end Bound

end Guest.State

end Dynarec
