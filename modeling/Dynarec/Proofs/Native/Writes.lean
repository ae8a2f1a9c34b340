import Dynarec.Proofs.Native.Code

/-!
# The registers that an instruction writes

An instruction changes the registers that it writes and no others.
-/
namespace Dynarec.Machine

/-- The register that an operand is, if it is one. -/
def Operand.written : Operand → List Reg
  | reg r => [r]
  | mem _ => []

/-- The registers that an instruction may change. -/
def Instr.writes : Instr → List Reg
  | movTo _ dst _ | movImm _ dst _ | aluImm _ _ dst _ | setcc _ dst => dst.written
  | shiftCl _ _ dst | shiftImm _ _ dst _ => dst.written
  | unary op _ dst => if op = .div ∨ op = .idiv then [.rax, .rdx] else dst.written
  | movFrom _ dst _ | movImm32 dst _ | movImm64 dst _ | movzx _ dst _ | movsx _ dst _ => [dst]
  | movsxd dst _ | alu _ _ dst _ | imul _ dst _ | lea dst _ => [dst]
  | cdq | cqo => [.rdx]
  | push _ | call _ | ret => [.rsp]
  | pop dst => [.rsp, dst]
  | test .. | ud2 | nop | jmp _ | jcc .. => []

namespace State

variable {s s' : State} {r : Reg}

theorem regs_get (s : State) (size : Size) (o : Operand) : (s.get size o).2.regs = s.regs := by
  cases o <;> rfl

theorem regs_setReg (s : State) {dst : Reg} (x : UInt64) (hr : r ∉ [dst]) :
    (s.setReg dst x).regs r = s.regs r :=
  Function.update_of_ne (by simpa using hr) _ _

theorem regs_set (s : State) {size : Size} (x : BitVec size.bits) {o : Operand}
    (hr : r ∉ o.written) : (s.set size x o).regs r = s.regs r := by
  cases o with
  | reg dst => exact s.regs_setReg _ hr
  | mem m => rfl

theorem regs_shift (s : State) (op : ShiftOp) (size : Size) {o : Operand} (count : Nat)
    (hr : r ∉ o.written) : (s.shift op size o count).regs r = s.regs r := by
  have hset := (s.get size o).2.regs_set (op.result (s.get size o).1 count) hr
  rw [regs_get] at hset
  unfold shift
  split_ifs <;> exact hset

theorem regs_setQuotient {size : Size} {q : Option (BitVec size.bits × BitVec size.bits)}
    (h : s.setQuotient size q = .ok s') (hr : r ∉ [Reg.rax, .rdx]) : s'.regs r = s.regs r := by
  cases q with
  | none => simp [setQuotient] at h
  | some q =>
    cases h
    simp only [List.mem_cons, List.not_mem_nil, or_false, not_or] at hr
    exact (Function.update_of_ne hr.2 _ _).trans (Function.update_of_ne hr.1 _ _)

end State

open State in
theorem Instr.regs_exec {i : Instr} {s s' : State} {r : Reg} (h : i.exec s = .ok s')
    (hr : r ∉ i.writes) : s'.regs r = s.regs r := by
  cases i with
  | movTo size dst src | movImm size dst x =>
    cases h
    exact regs_set s _ hr
  | movImm32 dst x | movImm64 dst x | lea dst m =>
    cases h
    exact regs_setReg s _ hr
  | movFrom size dst src | movzx size dst src | movsx size dst src =>
    cases h
    exact (regs_setReg _ _ hr).trans (congrFun (regs_get _ _ _) r)
  | movsxd dst src | imul size dst src =>
    cases h
    exact (regs_setReg _ _ hr).trans (congrFun (regs_get _ _ _) r)
  | test size rm reg =>
    cases h
    exact congrFun (regs_get s size rm) r
  | alu op size dst src =>
    cases h
    have hget := congrFun (regs_get s size src) r
    simp only
    split_ifs
    · exact hget
    · exact (regs_setReg _ _ hr).trans hget
  | aluImm op size dst x =>
    cases h
    have hget := congrFun (regs_get s size dst) r
    simp only
    split_ifs
    · exact hget
    · exact (regs_set _ _ hr).trans hget
  | unary op size rm =>
    cases op with
    | not | neg =>
      cases h
      exact (regs_set _ _ hr).trans (congrFun (regs_get _ _ _) r)
    | div | idiv =>
      simp only [exec] at h
      split at h
      · cases h
      · exact (regs_setQuotient h hr).trans (congrFun (regs_get _ _ _) r)
  | shiftCl op size rm | shiftImm op size rm n =>
    cases h
    exact regs_shift s op size _ hr
  | setcc c rm =>
    simp only [exec] at h
    obtain ⟨b, -, ⟨⟩⟩ := Except.bind_eq_ok.mp h
    exact regs_set s _ hr
  | cdq | cqo =>
    cases h
    exact regs_setReg s _ hr
  | push q =>
    cases h
    exact regs_setReg s _ hr
  | pop q =>
    cases h
    simp only [writes, List.mem_cons, List.not_mem_nil, or_false, not_or] at hr
    exact (Function.update_of_ne hr.2 _ _).trans (Function.update_of_ne hr.1 _ _)
  | nop =>
    cases h
    rfl
  | call | ret | ud2 | jmp | jcc => cases h

end Dynarec.Machine
