import Dynarec.Proofs.Graph.Building
import Dynarec.Proofs.Graph.Sweep

/-!
# What is left of a graph

The sweep takes away only instructions that compute a value or read a register. All others stay in their
blocks and in their order. Their variables are renamed, by one renaming for the whole graph: the sweep never
changes its mind about a variable that has been defined. The instructions that are left define the variables
from 0 on in the order in which they stand.
-/
namespace Dynarec

open Typing List Instr

variable {u v : Value} {idoms : Idoms} {label : Nat}

/-- The operation does something besides defining a variable from its operands and registers. -/
def Op.isFixture : Op → Bool
  | exit | assert _ | br _ _ _ | call _ _ | alloc _ | load _ | store _ _ | write _ _ => true
  | not _ | binop _ _ _ | icmp _ _ _ | read _ | cvt _ _ | unknown _ => false

def Op.targets : Op → List Int
  | br _ ifFalse ifTrue => [ifFalse, ifTrue]
  | _ => []

theorem Op.isFixture_withOperands (op : Op) (vs : List Value) :
    (op.withOperands vs).isFixture = op.isFixture := by
  unfold withOperands
  split <;> rfl

theorem Op.targets_withOperands (op : Op) (vs : List Value) :
    (op.withOperands vs).targets = op.targets := by
  unfold withOperands
  split <;> rfl

namespace Instr

def isFixture (i : Instr) : Bool :=
  i.op.isFixture

/-- `i'` is `i` with its variables renamed by `σ`. -/
structure Renamed (σ : Value → Value) (i i' : Instr) : Prop where
  op : i'.op = i.op.withOperands (i.op.operands.map σ)
  ty : i'.ty = i.ty
  result : i.hasResult = true → i'.result = σ i.result
  res : i.hasResult = false → i'.res = i.res

theorem Renamed.refl (i : Instr) : i.Renamed id i :=
  ⟨by simp, rfl, fun _ => rfl, fun _ => rfl⟩

end Instr

/-- `g'` has the blocks of `g`, with the fixtures of `g` renamed by `σ`. A constant keeps its value, and an
operand its type. -/
structure Graph.Trims (g g' : Graph) (σ : Value → Value) : Prop where
  const : ∀ t x, σ (.const t x) = .const t x
  operand : ∀ i ∈ g.instrs, ∀ v ∈ i.op.operands, (σ v).ty = v.ty
  size : g'.blocks.size = g.blocks.size
  block : ∀ {k : Nat} {b}, g.blocks[k]? = some b → ∃ b', g'.blocks[k]? = some b' ∧ b'.label = b.label ∧
    b'.tail?.map (fun i => i.op.targets) = b.tail?.map (fun i => i.op.targets) ∧
    Forall₂ (Renamed σ) (b.instrs.filter isFixture) (b'.instrs.filter isFixture)

namespace Sweep

variable {s final s' : Sweep} {is is' : List Instr}

theorem isFixture_of_fold {i : Instr} (h : s.fold i = some u) : i.isFixture = false := by
  obtain ⟨op, t, n⟩ := i
  cases op with
  | not x | binop op x y | icmp op x y | cvt op x | read reg => rfl
  | _ => simp [fold] at h

/-- What the sweep puts in the place of a value. -/
def rename (s : Sweep) : Value → Value
  | .const t x => .const t x
  | .var t id => (entryAt? s.subst id).getD (.var t id)

theorem Replaces.rename_eq (h : s.Replaces v u) : s.rename v = u := by
  cases v with
  | const t x => exact h.symm
  | var t id => rw [rename, h, Option.getD_some]

/-- The last table has what the sweep found for the variables that are defined so far. -/
def Settles (defs : Defs) (s final : Sweep) : Prop :=
  ∀ {v : Nat} {p : Nat × Ty}, defs[v]? = some (some p) → final.subst[v]? = s.subst[v]?

theorem Settles.rename_eq {defs : Defs} (h : Settles defs s final)
    (hv : Usable idoms defs label v) : final.rename v = s.rename v := by
  cases v with
  | const t x => rfl
  | var t id =>
    obtain ⟨-, at_, hid, -⟩ := hv
    obtain ⟨hnat, hentry⟩ := entryAt?_eq_some hid
    rw [rename, rename, hnat, entryAt?_natCast, entryAt?_natCast, h hentry]

theorem Settles.rename_operands {defs : Defs} (h : Settles defs s final) {vs us : List Value}
    (hv : ∀ v ∈ vs, Usable idoms defs label v) (hus : s.substitute vs = (us, true)) :
    us = vs.map final.rename := by
  have hall := forall₂_substitute hus
  clear hus
  induction hall with
  | nil => rfl
  | cons hvu _ ih =>
    rw [forall_mem_cons] at hv
    rw [map_cons, h.rename_eq hv.1, hvu.rename_eq, ih hv.2]

/-- An instruction that is kept is renamed: its operands as they are known, its result as it is recorded. -/
theorem settle_renamed {defs mid : Defs} {i i' : Instr} {us : List Value}
    (hdef : Typing.define defs label i = .ok mid) (hsize : s.subst.size = defs.size)
    (hs : s.settle { i with op := i.op.withOperands us } = some (some i', s'))
    (hus : us = i.op.operands.map final.rename) (hafter : Settles mid s' final) :
    i.Renamed final.rename i' := by
  have hhas := hasResult_withOperands i.op us i.ty i.res i.res
  obtain ⟨hop, hty, -, hsubst⟩ := settle_kept hs
  refine ⟨by rw [hop, hus], hty, fun hres => ?_, fun hres => ?_⟩
  · obtain ⟨-, hnat, hnone, rfl⟩ := define_of_result hdef hres
    have hlt : i.res.toNat < defs.size := (Array.getElem?_eq_some_iff.mp hnone).1
    have hentry : final.subst[i.res.toNat]? = some i'.result := by
      rw [hafter (p := (label, i.ty)) (by simp [hlt]), hsubst, hhas, hres, if_pos rfl]
      simp [hsize, hlt]
    rw [result, result, rename, hnat, entryAt?_natCast, hentry, Option.getD_some,
      result]
  · rcases settle_cases hs with ⟨u, -, hnone, -⟩ | ⟨-, hyes, -, -⟩ | ⟨-, -, hkept, -⟩
    · cases hnone
    · rw [hhas, hres] at hyes
      cases hyes
    · rw [Option.some.inj hkept]

/-- The fixtures of a checked list are kept, with their variables renamed as in the end. -/
theorem instrs_renamed {defs last : Defs}
    (hcheck : checkInstrs idoms label defs is = .ok last)
    (hs : s.instrs is = (is', s', true)) (hsize : s.subst.size = defs.size)
    (hfinal : Settles last s' final) :
    Forall₂ (Renamed final.rename) (is.filter isFixture)
      (is'.filter isFixture) := by
  induction is generalizing defs s is' with
  | nil =>
    cases hs
    exact .nil
  | cons i rest ih =>
    have hnow : Settles defs s final := fun hv =>
      (hfinal ((checkInstrs_extends hcheck).keep hv)).trans (instrs_subst hcheck hs hv)
    obtain ⟨mid, -, hi, hrest⟩ := checkInstrs_cons_ok.mp hcheck
    obtain ⟨us, kept, s₁, rest', hus, hset, hs₁, rfl⟩ := instrs_cons hs
    obtain ⟨huses, -, hdef⟩ := checkInstr_ok.mp hi
    have hafter : Settles mid s₁ final := fun hv =>
      (hfinal ((checkInstrs_extends hrest).keep hv)).trans (instrs_subst hrest hs₁ hv)
    have hmid : s₁.subst.size = mid.size := by
      rw [(settle_mono hset).1, hsize, (define_extends hdef).size]
    have htail := ih hrest hs₁ hmid
    have hfix := i.op.isFixture_withOperands us
    cases kept with
    | none =>
      rcases settle_cases hset with ⟨u, hfold, -, -⟩ | ⟨-, -, hnone, -⟩ | ⟨-, -, hnone, -⟩
      · have hgone : i.isFixture = false := hfix.symm.trans (isFixture_of_fold hfold)
        simpa [hgone] using htail
      · cases hnone
      · cases hnone
    | some i' =>
      have hrenamed := settle_renamed hdef hsize hset (hnow.rename_operands huses hus) hafter
      have hsame : i'.isFixture = i.isFixture := by
        rw [isFixture, (settle_kept hset).1]
        exact hfix
      cases hcase : i.isFixture with
      | true => simpa [hcase, hsame] using htail.cons hrenamed
      | false => simpa [hcase, hsame] using htail

theorem results_instrs (h : s.instrs is = (is', s', true)) :
    (is'.filter hasResult).map res =
      (range' s.next (s'.next - s.next)).map Int.ofNat := by
  induction is generalizing s is' with
  | nil =>
    cases h
    simp
  | cons i rest ih =>
    obtain ⟨us, kept, mid, rest', -, hset, hrest, rfl⟩ := instrs_cons h
    have hle := (instrs_mono hrest).2
    have htail := ih hrest
    rcases settle_cases hset with ⟨u, -, rfl, rfl⟩ | ⟨-, hres, rfl, rfl⟩ | ⟨-, hres, rfl, rfl⟩
    · exact htail
    · rw [learn_next] at hle htail
      have hcount : s'.next - s.next = (s'.next - (s.next + 1)) + 1 := by simp only at hle; omega
      have hhead : hasResult ⟨i.op.withOperands us, i.ty, s.next⟩ = true := hres
      rw [hcount, range'_succ]
      simpa [hhead] using htail
    · rw [learn_next] at htail
      simpa [hres] using htail

theorem results_blocks {bs bs' : List Block} (h : s.blocks bs = (bs', s', true)) :
    ((bs'.flatMap Block.instrs).filter hasResult).map res =
      (range' s.next (s'.next - s.next)).map Int.ofNat := by
  induction bs generalizing s bs' with
  | nil =>
    cases h
    simp
  | cons b rest ih =>
    obtain ⟨is', mid, rest', hi, hrest, rfl⟩ := blocks_cons h
    have hle : s.next ≤ mid.next := (instrs_mono hi).2
    have hle' : mid.next ≤ s'.next := (blocks_mono hrest).2
    have hsplit := range'_append_1 (s := s.next) (m := mid.next - s.next) (n := s'.next - mid.next)
    rw [show s.next + (mid.next - s.next) = mid.next by omega,
      show mid.next - s.next + (s'.next - mid.next) = s'.next - s.next by omega] at hsplit
    rw [flatMap_cons, filter_append, map_append, results_instrs hi, ih hrest, ← hsplit,
      map_append]
    rfl

theorem length_instrs_le (h : s.instrs is = (is', s', true)) : is'.length ≤ is.length := by
  induction is generalizing s is' with
  | nil =>
    cases h
    exact le_rfl
  | cons i rest ih =>
    obtain ⟨us, kept, mid, rest', -, -, hrest, rfl⟩ := instrs_cons h
    have hle := ih hrest
    cases kept <;> simp <;> omega

theorem length_blocks_le {bs bs' : List Block} (h : s.blocks bs = (bs', s', true))
    : (bs'.flatMap Block.instrs).length ≤ (bs.flatMap Block.instrs).length := by
  induction bs generalizing s bs' with
  | nil =>
    cases h
    exact le_rfl
  | cons b rest ih =>
    obtain ⟨is', mid, rest', hi, hrest, rfl⟩ := blocks_cons h
    have hle := length_instrs_le hi
    have hle' := ih hrest
    simp only [flatMap_cons, length_append]
    omega

end Sweep

namespace Graph

theorem Trims.refl (g : Graph) : g.Trims g id where
  const _ _ := rfl
  operand _ _ _ _ := rfl
  size := rfl
  block hb := ⟨_, hb, rfl, rfl, forall₂_same.mpr fun i _ => .refl i⟩

theorem blocks_of_sweep {g g' : Graph} (h : g.sweep = (g', true)) :
    ∃ s', Sweep.blocks { subst := Array.replicate g.varCount.toNat Value.none } g.blocks.toList =
      (g'.blocks.toList, s', true) ∧ g'.varCount = s'.next := by
  unfold sweep at h
  split_ifs at h
  · simp at h
  · generalize hs : Sweep.blocks { subst := Array.replicate g.varCount.toNat Value.none }
      g.blocks.toList = r at h
    obtain ⟨bs', s', done⟩ := r
    cases h
    exact ⟨s', by simp, by simp⟩

section Swept

variable {g g' : Graph} (T : g.Typed) (S : g.Swept g')

theorem Typed.operand_usable {i : Instr} (hi : i ∈ g.instrs) (hv : v ∈ i.op.operands) :
    ∃ label, Usable T.idoms (T.defs g.blocks.size) label v := by
  obtain ⟨k, b, hb, hib⟩ := exists_block hi
  have hk : k < g.blocks.size := (Array.getElem?_eq_some_iff.mp hb).1
  obtain ⟨mid, mid', hcheck, hext⟩ := checkInstrs_mem (T.block hb).2.2 hib
  have huse := ((checkInstr_ok.mp hcheck).1 v hv).of_extends hext
  refine ⟨k, ?_⟩
  cases v with
  | const t x => exact huse
  | var t id =>
    obtain ⟨ht, at_, hid, hdom⟩ := huse
    obtain ⟨hnat, hentry⟩ := entryAt?_eq_some hid
    refine ⟨ht, at_, ?_, hdom⟩
    rw [hnat, entryAt?_natCast]
    exact T.defs_mono hk le_rfl hentry

include T S in
theorem Swept.trimmed {k : Nat} {b b' : Block} (hb : g.blocks[k]? = some b)
    (hb' : g'.blocks[k]? = some b') : Trimmed b.instrs b'.instrs := by
  obtain ⟨T', -, hsound⟩ := S.typed T
  have hk : k < g.blocks.size := (Array.getElem?_eq_some_iff.mp hb).1
  have hsize : (T'.defs k).size = g'.varCount.toNat := T'.size_defs (by rw [S.size]; exact hk.le)
  exact (S.block_typed T hb hb' hsize (hsound k hk.le)).2.1

include T in
/-- The sweep renames with its last table. -/
theorem Swept.trims : g.Trims g' (S.table g.blocks.size).rename := by
  obtain ⟨T', -, hsound⟩ := S.typed T
  refine ⟨fun _ _ => rfl, fun i hi v hv => ?_, S.size, fun {k b} hb => ?_⟩
  · obtain ⟨label, huse⟩ := T.operand_usable hi hv
    obtain ⟨u, hu, hty, -⟩ := ((hsound _ le_rfl).enter label).replace huse
    have hrename : (S.table g.blocks.size).rename v = u := Sweep.Replaces.rename_eq hu
    rw [hrename, hty]
  · have hk : k < g.blocks.size := (Array.getElem?_eq_some_iff.mp hb).1
    obtain ⟨is', his', hb'⟩ := S.block hb
    obtain ⟨-, hne, hcheck⟩ := T.block hb
    refine ⟨_, hb', rfl, ?_, ?_⟩
    · have hlast := getLast?_eq_some_getLast hne
      obtain ⟨i', hi', vs, n, -, rfl⟩ :=
        (S.trimmed T hb hb').getLast? hlast (checkInstrs_getLast? hcheck _ hlast)
      simp [Block.tail?, hi', hlast, Op.targets_withOperands]
    · exact Sweep.instrs_renamed hcheck his' (hsound k hk.le).size fun hv => S.subst_eq T hk le_rfl hv

end Swept

/-- A graph that the checker accepts is accepted after simplification. Its blocks keep their labels and
the targets of their terminators, and its fixtures stay in their order, with their variables renamed; there
are not more instructions than before. The sweep gets to its end just if there is room for its table, and
then the variables that are defined are numbered from 0 on in label and instruction order, and there are no
others. -/
theorem simplify_wellFormed {g : Graph} (h : g.typecheck = .accepted) :
    g.simplify.typecheck = .accepted ∧ (∃ σ, g.Trims g.simplify σ) ∧
      g.simplify.instrCount ≤ g.instrCount ∧ g.sweep.2 = g.hasRoomFor 24 ∧
      (g.hasRoomFor 24 = true → ∃ n : Nat, g.simplify.varCount = n ∧
        g.simplify.results = (List.range n).map Int.ofNat) := by
  refine ⟨(typecheck_simplify h).1, ?_⟩
  obtain ⟨-, -, ⟨T⟩⟩ := typecheck_eq_accepted.mp h
  obtain ⟨g', ⟨S⟩, hsweep⟩ := T.swept
  by_cases hroom : g.hasRoomFor 24 = true
  · have hsimp : g.simplify = g' := by rw [simplify, hsweep hroom]
    obtain ⟨s', hs', hcount⟩ := blocks_of_sweep (hsweep hroom)
    rw [hsimp, hsweep hroom, hroom]
    refine ⟨⟨_, S.trims T⟩, ?_, rfl, fun _ => ⟨s'.next, hcount, ?_⟩⟩
    · rw [← length_instrs, ← length_instrs]
      exact Sweep.length_blocks_le hs'
    · rw [List.range_eq_range']
      exact Sweep.results_blocks hs'
  · -- Without room for its table the sweep leaves the graph as it is.
    have hsame : g.sweep = (g, g.hasRoomFor 24) := by simp [sweep, hroom]
    have hsimp : g.simplify = g := by rw [simplify, hsame]
    rw [hsimp, hsame]
    exact ⟨⟨id, .refl g⟩, le_rfl, rfl, fun hyes => absurd hyes hroom⟩

/-- Reads a register back that it has just written, and uses what it reads two blocks later. -/
def relay : Graph where
  blocks := #[
    ⟨0, [⟨.alloc .i64, .i64, 0⟩, ⟨.read 1, .i64, 1⟩, ⟨.write 2 (.var .i64 1), .void, 0⟩,
      ⟨.read 2, .i64, 2⟩, ⟨.binop .add (.var .i64 2) (.const .i64 0), .i64, 3⟩,
      ⟨.load (.var .i64 3), .i8, 4⟩, ⟨.icmp .eq (.var .i8 4) (.const .i8 7), .i1, 5⟩,
      ⟨.br (.var .i1 5) 1 2, .void, 0⟩]⟩,
    ⟨1, [⟨.assert (.var .i1 5), .void, 0⟩, ⟨.exit, .void, 0⟩]⟩,
    ⟨2, [⟨.cvt .zext (.var .i8 4), .i32, 6⟩, ⟨.store (.var .i64 0) (.var .i32 6), .void, 0⟩,
      ⟨.call (some ⟨"f", 1⟩) [.var .i64 3], .i64, 7⟩, ⟨.write 1 (.var .i64 7), .void, 0⟩,
      ⟨.exit, .void, 0⟩]⟩]
  varCount := 8

theorem simplify_wellFormed_relay :
    relay.typecheck = .accepted ∧ relay.simplify.instrCount < relay.instrCount ∧
      (∃ σ, relay.Trims relay.simplify σ) ∧
      ∃ n : Nat, relay.simplify.varCount = n ∧ relay.simplify.results = (List.range n).map Int.ofNat := by
  have hchecked : relay.typecheck = .accepted := by decide +kernel
  obtain ⟨-, htrims, -, -, hnumbered⟩ := simplify_wellFormed hchecked
  exact ⟨hchecked, by decide +kernel, htrims, hnumbered (by decide +kernel)⟩

end Graph

end Dynarec
