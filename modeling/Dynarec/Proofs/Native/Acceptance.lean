import Dynarec.Proofs.Guest.Coverage
import Dynarec.Proofs.Native.Position
import Dynarec.Proofs.Native.Selection

/-!
# Which graphs can be assembled

A checked graph is assembled, wherever there is room, just if every instruction that is emitted has native
code; otherwise the failure names the first one that has none. Assembly of a checked graph aborts only if the
homes of its variables do not fit the address space, or if the buffer is misplaced. A region that was lifted
without an exception handler is always assembled, before and after it is simplified.
-/
namespace Dynarec.Native

open Machine Homes

variable {w : Workspace} {g : Graph} {h : Homes} {b : CodeBuffer}

/-! ## Writing with enough room -/

/-- With room for all of it, writing fails just if the layout stopped. -/
theorem writeCode_of_room (hb : Ready b)
    (hroom : b.offset + (codeBytes h (layout w g h).1.flatten).length ≤ b.capacity) :
    (writeCode w g h b).1 = (layout w g h).2 := by
  rcases (writeCode_ends w g h hb).2 with ⟨f, -, -, hfull⟩ | ⟨hstop, -⟩
  · have hle := runsRoom_le (layout w g h).2 (layout w g h).1
    rw [length_codeBytes] at hroom
    rw [codeNeed] at hfull
    split_ifs at hfull <;> omega
  · exact hstop

/-- Writing fails for want of room or because the layout stopped. -/
theorem writeRuns_failure (target : Target → Nat) (stop : Option AssembleFailure) (pos : Nat) (b : CodeBuffer)
    (rs : List (List Placed)) : (writeRuns target stop pos b rs).1 = stop ∨
      ∃ f, (writeRuns target stop pos b rs).1 = some f ∧ f.IsOverflow := by
  induction rs generalizing pos b with
  | nil => exact Or.inl rfl
  | cons run rest ih =>
    simp only [writeRuns]
    split_ifs
    · exact Or.inl rfl
    · split
      · exact Or.inr ⟨_, rfl, _, rfl⟩
      · exact ih _ _

theorem writeCode_failure {f : AssembleFailure} (hf : (writeCode w g h b).1 = some f) :
    f.IsOverflow ∨ (layout w g h).2 = some f := by
  unfold writeCode at hf
  simp only at hf
  split at hf
  · cases hf
    exact Or.inl ⟨_, rfl⟩
  · rcases Option.or_eq_some_iff.mp hf with hf | ⟨-, hf⟩
    · refine (writeRuns_failure _ _ _ _ _).elim (fun hsame => Or.inr (hsame.symm.trans hf)) ?_
      rintro ⟨f', hf', hover⟩
      cases hf'.symm.trans hf
      exact Or.inl hover
    · obtain ⟨e, -, rfl⟩ := Option.map_eq_some_iff.mp hf
      exact Or.inl ⟨_, rfl⟩

theorem refusal_eq_some {i : Dynarec.Instr} {f : AssembleFailure} :
    refusal w i = some f ↔ ∃ cause, Select.unsupported w i = some cause ∧ f = .error (.at i cause) := by
  rw [refusal, Option.map_eq_some_iff]
  exact exists_congr fun cause => and_congr_right fun _ => eq_comm

/-- The room that the code of a graph takes, as far as it is laid out. -/
def codeRoom (w : Workspace) (g : Graph) : Nat :=
  match ofGraph g with
  | .ok h => (codeBytes h (layout w g h).1.flatten).length
  | .error _ => 0

/-! ## Checked graphs -/

section Checked

variable (T : g.Typed) (hne : g.blocks.size ≠ 0) (hw : w.Bindable)
include T

theorem op_ne_unknown {i : Dynarec.Instr} (hi : i ∈ g.instrs) (tag : Nat) : i.op ≠ .unknown tag := by
  intro hop
  obtain ⟨k, b, hb, hib⟩ := Graph.exists_block hi
  obtain ⟨mid, mid', hcheck, -⟩ := Typing.checkInstrs_mem (T.block hb).2.2 hib
  have hshape := (Typing.checkInstr_ok.mp hcheck).2.1
  simp [Typing.checkShape, hop] at hshape

include hne hw

/-- Assembly of a checked graph aborts only for want of room for homes, or in a misplaced buffer. -/
theorem assemble_abort_iff (b : CodeBuffer) : (∃ m, (assemble w b g).1 = .error (.abort m)) ↔
    g.hasRoomFor entrySize = false ∨ b.isMisplaced 1 = true := by
  obtain ⟨h, hhomes⟩ := exists_ofGraph T
  have hempty : g.blocks.isEmpty = false := by simpa [Array.isEmpty] using hne
  cases hsize : g.hasRoomFor entrySize with
  | false => simp [assemble, hempty, hsize]
  | true =>
    cases hplace : b.isMisplaced 1 with
    | true => simp [assemble, hempty, hsize, hhomes, hplace]
    | false =>
      simp only [Bool.true_eq_false, Bool.false_eq_true, or_self, iff_false]
      rintro ⟨m, hm⟩
      have hwrite : (writeCode w g h b).1 = some (.abort m) := by
        rcases hcode : writeCode w g h b with ⟨_ | f, done⟩
        · simp [assemble, hempty, hsize, hhomes, hplace, hcode] at hm
        · simpa [assemble, hempty, hsize, hhomes, hplace, hcode] using hm
      -- what stops the layout is an error, and so is a full buffer
      rcases writeCode_failure hwrite with ⟨o, ho⟩ | hstop
      · cases ho
      · rw [layout_refusal T (Nat.pos_of_ne_zero hne) (ofGraph_sound T hhomes) hw] at hstop
        obtain ⟨-, i, -, -, hi, -⟩ := List.findSome?_eq_some_iff.mp hstop
        obtain ⟨cause, -, hcause⟩ := refusal_eq_some.mp hi
        cases hcause

/-- With enough room, a checked graph is assembled, or its first instruction without native code is
reported. -/
theorem assemble_refusal (hsize : g.hasRoomFor entrySize = true) (hb : Ready b)
    (hroom : b.offset + codeRoom w g ≤ b.capacity) :
    match g.emitted.findSome? (refusal w) with
    | some f => (assemble w b g).1 = .error f
    | none => ∃ code, (assemble w b g).1 = .ok code := by
  obtain ⟨h, hhomes⟩ := exists_ofGraph T
  have hempty : g.blocks.isEmpty = false := by simpa [Array.isEmpty] using hne
  simp only [codeRoom, hhomes] at hroom
  have hwrite := writeCode_of_room hb hroom
  rw [layout_refusal T (Nat.pos_of_ne_zero hne) (ofGraph_sound T hhomes) hw] at hwrite
  rw [hb.assemble_eq (prepare_eq_ok.mpr ⟨hempty, hsize, hhomes⟩), ← hwrite]
  rcases writeCode w g h b with ⟨failure, done⟩
  cases failure with
  | some f => rfl
  | none => exact ⟨_, rfl⟩

theorem assemble_ok_iff (hsize : g.hasRoomFor entrySize = true) (hb : Ready b)
    (hroom : b.offset + codeRoom w g ≤ b.capacity) :
    (∃ code, (assemble w b g).1 = .ok code) ↔ ∀ i ∈ g.emitted, ∀ f, ¬ Lacks w i f := by
  have hknown : ∀ i ∈ g.emitted, (refusal w i = none ↔ ∀ f, ¬ Lacks w i f) := by
    intro i hi
    rw [refusal, Option.map_eq_none_iff]
    exact unsupported_eq_none_iff (op_ne_unknown T (Graph.mem_instrs_of_mem_emitted hi))
  have hcases := assemble_refusal T hne hw hsize hb hroom
  cases hfirst : g.emitted.findSome? (refusal w) with
  | none =>
    rw [hfirst] at hcases
    refine iff_of_true hcases fun i hi => (hknown i hi).mp ?_
    exact List.findSome?_eq_none_iff.mp hfirst i hi
  | some f =>
    rw [hfirst] at hcases
    refine iff_of_false ?_ fun hall => ?_
    · rintro ⟨code, hcode⟩
      rw [hcases] at hcode
      cases hcode
    · have hnone := List.findSome?_eq_none_iff.mpr fun i hi => (hknown i hi).mpr (hall i hi)
      rw [hfirst] at hnone
      cases hnone

theorem assemble_error_of_lacks (hsize : g.hasRoomFor entrySize = true) (hb : Ready b)
    (hroom : b.offset + codeRoom w g ≤ b.capacity) {before after : List Dynarec.Instr} {i : Dynarec.Instr}
    {f : Fault} (hsplit : g.emitted = before ++ i :: after) (hbefore : ∀ j ∈ before, ∀ f, ¬ Lacks w j f)
    (hi : Lacks w i f) :
    ∃ cause, (assemble w b g).1 = .error (.error (.at i cause)) ∧ cause.fault = f := by
  have hknown : ∀ j ∈ g.emitted, ∀ tag, j.op ≠ .unknown tag := fun j hj =>
    op_ne_unknown T (Graph.mem_instrs_of_mem_emitted hj)
  obtain ⟨cause, hcause, hfault⟩ := (exists_unsupported_iff (hknown i (by simp [hsplit]))).mpr hi
  have hfirst : g.emitted.findSome? (refusal w) = some (.error (.at i cause)) := by
    refine List.findSome?_eq_some_iff.mpr ⟨before, i, after, hsplit, refusal_eq_some.mpr ⟨cause, hcause, rfl⟩, ?_⟩
    intro j hj
    rw [refusal, Option.map_eq_none_iff]
    exact (unsupported_eq_none_iff (hknown j (by simp [hsplit, hj]))).mpr (hbefore j hj)
  have hcases := assemble_refusal T hne hw hsize hb hroom
  rw [hfirst] at hcases
  exact ⟨cause, hcases, hfault⟩

end Checked

/-- The homes of a graph fit after it is simplified, if they did before. -/
theorem hasRoomFor_simplify (T : g.Typed) {n : Nat} (hroom : g.hasRoomFor n = true) :
    g.simplify.hasRoomFor n = true := by
  obtain ⟨g', ⟨S⟩, hsweep⟩ := T.swept
  by_cases h24 : g.hasRoomFor 24 = true
  · rw [show g.simplify = g' by rw [Graph.simplify, hsweep h24]]
    exact Graph.hasRoomFor_of_le hroom le_rfl (by rw [S.varCount]; omega) (S.varCount_le T)
  · rwa [show g.simplify = g by simp [Graph.simplify, Graph.sweep, h24]]

/-- A checked graph is assembled with enough room just if every instruction that is emitted has native code,
and the failure is otherwise that of the first one that has none. The blocks that are emitted are those that
control can come to. Assembly aborts only if the homes of the variables do not fit the address space, or in a
misplaced buffer. A region that was lifted without an exception handler is assembled, simplified or not. -/
theorem assemble_ok_iff_supported :
    (∀ (w : Workspace) (g : Graph), w.Made → g.typecheck = .accepted →
      (∀ b, (∃ m, (assemble w b g).1 = .error (.abort m)) ↔
        g.hasRoomFor Homes.entrySize = false ∨ b.isMisplaced 1 = true) ∧
      (∀ k, k ∈ g.placement [] [0] ↔ g.Reachable k) ∧
      (g.hasRoomFor Homes.entrySize = true → ∀ b, Ready b → b.offset + codeRoom w g ≤ b.capacity →
        ((∃ code, (assemble w b g).1 = .ok code) ↔ ∀ i ∈ g.emitted, ∀ f, ¬ Lacks w i f) ∧
        ∀ before i after f, g.emitted = before ++ i :: after → (∀ j ∈ before, ∀ f, ¬ Lacks w j f) →
          Lacks w i f → ∃ cause, (assemble w b g).1 = .error (.error (.at i cause)) ∧
            (AssembleError.at i cause).report.fault = some f)) ∧
    ∀ (l : Guest.Lifter) (space w : Workspace) (addr : UInt64) (code : List UInt8) (g : Graph), space.Made →
      l.exception = none → l.lift space addr code = (.ok g, w) →
      ∀ g' ∈ [g, g.simplify], ∀ b, Ready b → b.offset + codeRoom w g' ≤ b.capacity →
        ∃ a, (assemble w b g').1 = .ok a := by
  constructor
  · intro w g hw hg
    obtain ⟨hne, -, ⟨T⟩⟩ := Graph.typecheck_eq_accepted.mp hg
    refine ⟨assemble_abort_iff T hne hw.bindable, fun k => Graph.mem_placement_iff T (Nat.pos_of_ne_zero hne), ?_⟩
    intro hsize b hb hroom
    refine ⟨assemble_ok_iff T hne hw.bindable hsize hb hroom, ?_⟩
    intro before i after f hsplit hbefore hi
    obtain ⟨cause, herror, rfl⟩ :=
      assemble_error_of_lacks T hne hw.bindable hsize hb hroom hsplit hbefore hi
    exact ⟨cause, herror, rfl⟩
  · intro l space w addr code g hspace hl hlift
    have hok : (l.lift space addr code).1 = .ok g := by rw [hlift]
    obtain ⟨hg, -, hg'⟩ := l.lift_typecheck addr code hspace hok
    obtain ⟨hne, -, ⟨T⟩⟩ := Graph.typecheck_eq_accepted.mp hg
    obtain ⟨hne', -, ⟨T'⟩⟩ := Graph.typecheck_eq_accepted.mp hg'
    have hw := l.lift_bindable hlift hspace
    have hcovered := l.lift_covered hlift hl
    have hsize := l.lift_hasRoomFor hlift hspace
    simp only [List.forall_mem_cons, List.not_mem_nil, false_implies, implies_true, and_true]
    refine ⟨fun b hb hroom => ?_, fun b hb hroom => ?_⟩
    · refine (assemble_ok_iff T hne hw hsize hb hroom).mpr fun i hi => ?_
      exact hcovered i (Graph.mem_instrs_of_mem_emitted hi)
    · refine (assemble_ok_iff T' hne' hw (hasRoomFor_simplify T hsize) hb hroom).mpr fun i hi => ?_
      exact T.simplify_covered hcovered i (Graph.mem_instrs_of_mem_emitted hi)

namespace Crossed

def division : Dynarec.Instr := ⟨.binop .sdiv (.const .i8 8) (.const .i8 2), .i8, 2⟩

/-- The true side of the branch reads a register, the false side divides bytes and is emitted first. -/
def graph : Graph where
  blocks := #[
    ⟨0, [⟨.icmp .eq (.const .i8 1) (.const .i8 2), .i1, 0⟩, ⟨.br (.var .i1 0) 2 1, .void, 0⟩]⟩,
    ⟨1, [⟨.read 5, .i32, 1⟩, ⟨.exit, .void, 0⟩]⟩,
    ⟨2, [division, ⟨.exit, .void, 0⟩]⟩]
  varCount := 3

theorem emitted : graph.emitted = [⟨.icmp .eq (.const .i8 1) (.const .i8 2), .i1, 0⟩,
    ⟨.br (.var .i1 0) 2 1, .void, 0⟩] ++ division :: [⟨.exit, .void, 0⟩, ⟨.read 5, .i32, 1⟩,
      ⟨.exit, .void, 0⟩] := by
  cbv

theorem ready : Ready { capacity := 4096 } :=
  ⟨⟨le_rfl, by decide, by decide⟩, rfl⟩

end Crossed

open Crossed Guest.Lifter in
/-- The division of bytes stands behind the read of a register that is not bound, but is emitted before
it. A likely branch is lifted and assembled. -/
theorem assemble_ok_iff_supported_crossed :
    let l : Guest.Lifter := { maxInstructions := 5 }
    smallSpace.Made ∧ graph.typecheck = .accepted ∧
      (∃ cause, (assemble smallSpace { capacity := 4096 } graph).1 = .error (.error (.at division cause)) ∧
        (AssembleError.at division cause).report.fault = some .unsupportedDivision) ∧
      ∃ g w, l.lift boundSpace 0x400 likelyCode = (.ok g, w) ∧
        ∀ g' ∈ [g, g.simplify], ∃ a, (assemble w { capacity := 4096 } g').1 = .ok a := by
  intro l
  obtain ⟨hchecked, hlifted⟩ := assemble_ok_iff_supported
  have htyped : graph.typecheck = .accepted := by decide +kernel
  refine ⟨smallSpace_made, htyped, ?_, ?_⟩
  · obtain ⟨-, -, hroom⟩ := hchecked smallSpace graph smallSpace_made htyped
    obtain ⟨-, hfirst⟩ := hroom (by decide +kernel) _ ready (by decide +kernel)
    refine hfirst _ division _ _ emitted ?_ (.division rfl rfl (by decide) (by decide))
    intro j hj f hlacks
    rcases List.mem_pair.mp hj with rfl | rfl
    all_goals
      cases hlacks with
      | division hop | target hop | entry hop | read hop | write hop => cases hop
  · have hmade : boundSpace.Made := smallSpace_made.bindState bind_smallSpace
    have hok : (l.lift boundSpace 0x400 likelyCode).1 =
        .ok ((l.lift boundSpace 0x400 likelyCode).1.toOption.getD Graph.empty) :=
      Except.eq_ok_getD (by decide +kernel) Graph.empty
    have hlift : l.lift boundSpace 0x400 likelyCode =
        (.ok ((l.lift boundSpace 0x400 likelyCode).1.toOption.getD Graph.empty),
          (l.lift boundSpace 0x400 likelyCode).2) := by
      rw [← hok]
    refine ⟨_, _, hlift, fun g' hg' => hlifted l _ _ _ _ _ hmade rfl hlift g' hg' _ ready ?_⟩
    revert g'
    decide +kernel

end Dynarec.Native
