import Dynarec.Graph.Typing
import Dynarec.Proofs.Graph.Dominance
import Dynarec.Proofs.Graph.Eval

/-!
# What the type checker has checked

The checker runs through a graph once and threads a table of definitions. `Graph.Typed` keeps the tables
that stand in front of each block, so that facts about a block can be used without the blocks before it.
An accepted graph has such tables, and a graph that has them is accepted.
-/
namespace Dynarec

open Array

variable {i : Instr} {idoms : Idoms} {p : Nat × Ty} {bs : List Block} {g : Graph}

variable {α ε β : Type}

theorem entryAt?_natCast (table : Array α) (k : Nat) : entryAt? table (k : Int) = table[k]? := by
  simp [entryAt?]

theorem entryAt?_eq_some {table : Array α} {i : Int} {a : α} (h : entryAt? table i = some a) :
    i = (i.toNat : Int) ∧ table[i.toNat]? = some a := by
  unfold entryAt? at h
  split_ifs at h with hneg
  exact ⟨by omega, h⟩

theorem Except.bind_unit_eq_ok {x : Except ε Unit} {f : Unit → Except ε β} {b : β} :
    (x >>= f) = .ok b ↔ x = .ok () ∧ f () = .ok b := by
  cases x <;> simp [bind, Except.bind]

theorem Except.mapError_eq_ok {ε' : Type} {f : ε → ε'} {x : Except ε α} {a : α} :
    x.mapError f = .ok a ↔ x = .ok a := by
  cases x <;> simp [Except.mapError]

namespace Typing

variable {defs defs' : Defs} {label n : Nat}

/-- A value may be used in block `label`. -/
def Usable (idoms : Idoms) (defs : Defs) (label : Nat) : Value → Prop
  | .const t x => t.IsScalar ∧ t.Fits x
  | .var t id => t.IsScalar ∧
      ∃ at_, entryAt? defs id = some (some (at_, t)) ∧ idoms.dominates at_ label = true

theorem Usable.isScalar {v : Value} (h : Usable idoms defs label v) : v.ty.IsScalar := by
  cases v with
  | const t x => exact h.1
  | var t id => exact h.1

theorem checkUse_ok {v : Value} :
    checkUse idoms defs label v = .ok () ↔ Usable idoms defs label v := by
  unfold checkUse
  by_cases hs : v.ty.IsScalar
  · have hguard : (!v.ty.isValid || decide (v.ty = Ty.void)) = false := by
      simp [hs.1, hs.2]
    rw [hguard]
    cases v with
    | const t x =>
      simp only [Bool.false_eq_true, if_false, Usable]
      have hfit := Ty.fits_iff_no_high t x
      split_ifs with hx
      · simp [← hfit, hx]
      · simpa [← hfit, show t.IsScalar from hs] using hx
    | var t id =>
      simp only [Bool.false_eq_true, if_false, Usable]
      cases he : (entryAt? defs id).join with
      | none =>
        simp only [reduceCtorEq, false_iff, not_and, not_exists]
        intro _ at_ heq
        simp [heq] at he
      | some p =>
        obtain ⟨at_, u⟩ := p
        have he' : entryAt? defs id = some (some (at_, u)) := by
          cases hd : entryAt? defs id with
          | none => simp [hd] at he
          | some o => simpa [hd] using he
        simp only [he', Option.some.injEq, Prod.mk.injEq]
        split_ifs with hdom hty
        · simp only [false_iff, not_and, not_exists, and_imp]
          rintro _ b rfl rfl hb
          simp [hb] at hdom
        · simp only [false_iff, not_and, not_exists, and_imp]
          rintro _ b - hu
          exact absurd hu hty
        · simp only [ne_eq, not_not] at hty
          simp only [Bool.not_eq_true', Bool.not_eq_false] at hdom
          exact iff_of_true rfl ⟨hs, at_, ⟨rfl, hty⟩, hdom⟩
  · have hguard : (!v.ty.isValid || decide (v.ty = Ty.void)) = true := by
      simp only [Ty.IsScalar, not_and_or, not_not] at hs
      rcases hs with h | h
      · simp [h]
      · simp [h]
    rw [hguard]
    simp only [if_true, reduceCtorEq, false_iff]
    exact fun h => hs h.isScalar

theorem checkUses_ok {vs : List Value} :
    checkUses idoms defs label vs = .ok () ↔ ∀ v ∈ vs, Usable idoms defs label v := by
  induction vs with
  | nil => simp [checkUses]
  | cons v vs ih =>
    simp only [checkUses, Except.bind_unit_eq_ok, checkUse_ok, ih, List.mem_cons, forall_eq_or_imp]

theorem define_ok (h : define defs label i = .ok defs') :
    i.hasResult = false ∧ defs' = defs ∨
      i.hasResult = true ∧ i.ty.IsScalar ∧ i.res = (i.res.toNat : Int) ∧
        defs[i.res.toNat]? = some none ∧
        defs' = defs.setIfInBounds i.res.toNat (some (label, i.ty)) := by
  unfold define at h
  split_ifs at h with hres hty
  · left
    simp only [Except.ok.injEq] at h
    exact ⟨by simpa using hres, h.symm⟩
  · right
    split at h
    · cases h
    · cases h
    · rename_i he
      simp only [Except.ok.injEq] at h
      obtain ⟨hnat, hentry⟩ := entryAt?_eq_some he
      refine ⟨by simpa using hres, ?_, hnat, hentry, h.symm⟩
      simp only [Bool.or_eq_true, decide_eq_true_eq, Bool.not_eq_true', not_or,
        Bool.not_eq_false] at hty
      exact ⟨hty.2, hty.1⟩

theorem define_of_result (h : define defs label i = .ok defs') (hres : i.hasResult = true) :
    i.ty.IsScalar ∧ i.res = (i.res.toNat : Int) ∧ defs[i.res.toNat]? = some none ∧
      defs' = defs.setIfInBounds i.res.toNat (some (label, i.ty)) := by
  rcases define_ok h with ⟨hno, -⟩ | ⟨-, h⟩
  · simp [hno] at hres
  · exact h

theorem define_eq_ok {op : Op} {t : Ty} (hres : Instr.hasResult ⟨op, t, n⟩ = true) (ht : t.IsScalar)
    (hn : defs[n]? = some none) :
    define defs label ⟨op, t, n⟩ = .ok (defs.setIfInBounds n (some (label, t))) := by
  simp [define, hres, ht.1, ht.2, entryAt?_natCast, hn]

theorem countP_define (h : define defs label i = .ok defs') :
    defs'.countP Option.isSome = defs.countP Option.isSome + if i.hasResult then 1 else 0 := by
  rcases define_ok h with ⟨hres, rfl⟩ | ⟨hres, -, -, hnone, rfl⟩
  · simp [hres]
  · obtain ⟨hlt, hnone⟩ := Array.getElem?_eq_some_iff.mp hnone
    rw [Array.setIfInBounds_def, dif_pos hlt, Array.countP_set, hnone]
    simp [hres]

theorem checkInstr_ok :
    checkInstr idoms label defs i = .ok defs' ↔
      (∀ v ∈ i.op.operands, Usable idoms defs label v) ∧ checkShape i = .ok () ∧
        define defs label i = .ok defs' := by
  simp only [checkInstr, Except.bind_unit_eq_ok, checkUses_ok]

theorem checkPlace_ok {isLast : Bool} :
    checkPlace label i isLast = .ok () ↔ i.isTerminator = isLast := by
  unfold checkPlace
  split_ifs <;> simp_all

theorem checkInstrs_cons_ok {rest : List Instr} :
    checkInstrs idoms label defs (i :: rest) = .ok defs' ↔
      ∃ mid, i.isTerminator = rest.isEmpty ∧ checkInstr idoms label defs i = .ok mid ∧
        checkInstrs idoms label mid rest = .ok defs' := by
  rw [checkInstrs, Except.bind_eq_ok]
  simp only [Except.mapError_eq_ok, Except.bind_unit_eq_ok, checkPlace_ok, and_assoc]

theorem checkBlocks_cons_ok {b : Block} {rest : List Block} :
    checkBlocks idoms label defs (b :: rest) = .ok defs' ↔
      ∃ mid, b.label = label ∧ b.instrs ≠ [] ∧ checkInstrs idoms label defs b.instrs = .ok mid ∧
        checkBlocks idoms (label + 1) mid rest = .ok defs' := by
  rw [checkBlocks]
  split_ifs with hl he
  · simp only [false_iff, not_exists]
    rintro mid ⟨h, -⟩
    exact hl h
  · simp only [false_iff, not_exists]
    rintro mid ⟨-, h, -⟩
    exact h (List.isEmpty_iff.mp he)
  · simp only [Except.bind_eq_ok]
    simp only [ne_eq, not_not] at hl
    constructor
    · rintro ⟨mid, hi, hr⟩
      exact ⟨mid, hl, fun h => he (by simp [h]), hi, hr⟩
    · rintro ⟨mid, -, -, hi, hr⟩
      exact ⟨mid, hi, hr⟩

/-- The table before a block only gains entries of that block. -/
structure Extends (label : Nat) (defs defs' : Defs) : Prop where
  size : defs'.size = defs.size
  keep : ∀ {v : Nat} {p}, defs[v]? = some (some p) → defs'[v]? = some (some p)
  new : ∀ {v : Nat} {p}, defs'[v]? = some (some p) → defs[v]? = some (some p) ∨ p.1 = label

theorem Extends.refl (label : Nat) (defs : Defs) : Extends label defs defs :=
  ⟨rfl, id, Or.inl⟩

theorem Extends.trans {a b c : Defs} (hab : Extends label a b) (hbc : Extends label b c) :
    Extends label a c := by
  refine ⟨hbc.size.trans hab.size, fun h => hbc.keep (hab.keep h), ?_⟩
  intro v p h
  rcases hbc.new h with h | h
  · exact hab.new h
  · exact Or.inr h

theorem set_extends {t : Ty} (h : defs[n]? = some none) :
    Extends label defs (defs.setIfInBounds n (some (label, t))) := by
  refine ⟨by simp, ?_, ?_⟩
  · intro v p hv
    rw [getElem?_setIfInBounds]
    split_ifs with he hlt
    · rw [he, hv] at h
      simp at h
    · have := (Array.getElem?_eq_some_iff.mp h).1
      omega
    · exact hv
  · intro v p hv
    rw [getElem?_setIfInBounds] at hv
    split_ifs at hv with he hlt
    · simp only [Option.some.injEq] at hv
      exact Or.inr (by rw [← hv])
    · exact Or.inl hv

theorem define_extends (h : define defs label i = .ok defs') : Extends label defs defs' := by
  rcases define_ok h with ⟨-, rfl⟩ | ⟨-, -, -, hnone, rfl⟩
  · exact .refl label defs'
  · exact set_extends hnone

theorem checkInstrs_extends {is : List Instr} (h : checkInstrs idoms label defs is = .ok defs') :
    Extends label defs defs' := by
  induction is generalizing defs with
  | nil =>
    simp only [checkInstrs, Except.ok.injEq] at h
    subst h
    exact .refl label defs
  | cons i rest ih =>
    obtain ⟨mid, -, hi, hr⟩ := checkInstrs_cons_ok.mp h
    exact (define_extends (checkInstr_ok.mp hi).2.2).trans (ih hr)

/-- Every instruction of a checked list passes the check, and what it uses is in the last table. -/
theorem checkInstrs_mem {is : List Instr} {last : Defs}
    (h : checkInstrs idoms label defs is = .ok last) (hi : i ∈ is) :
    ∃ mid mid', checkInstr idoms label mid i = .ok mid' ∧ Extends label mid last := by
  induction is generalizing defs with
  | nil => cases hi
  | cons j rest ih =>
    obtain ⟨mid, -, hj, hrest⟩ := checkInstrs_cons_ok.mp h
    rcases List.mem_cons.mp hi with rfl | hi
    · exact ⟨defs, mid, hj, checkInstrs_extends h⟩
    · exact ih hrest hi

theorem checkInstrs_getLast? {is : List Instr} (h : checkInstrs idoms label defs is = .ok defs')
    (i : Instr) (hi : is.getLast? = some i) : i.isTerminator = true := by
  induction is generalizing defs with
  | nil => simp at hi
  | cons j rest ih =>
    obtain ⟨mid, hplace, -, hr⟩ := checkInstrs_cons_ok.mp h
    cases rest with
    | nil =>
      simp only [List.getLast?_singleton, Option.some.injEq] at hi
      simpa [← hi] using hplace
    | cons k rest => exact ih hr (by simpa [List.getLast?_cons] using hi)

end Typing

/-- The table of dominators of a graph and the tables of definitions in front of its blocks, which
the type checker goes through. -/
structure Graph.Typed (g : Graph) where
  idoms : Idoms
  defs : Nat → Defs
  dominators : g.dominators = .ok idoms
  start : defs 0 = replicate g.varCount.toNat none
  block : ∀ {k : Nat} {b}, g.blocks[k]? = some b → b.label = k ∧ b.instrs ≠ [] ∧
    Typing.checkInstrs idoms k (defs k) b.instrs = .ok (defs (k + 1))

namespace Typing

theorem checkBlocks_tables {label : Nat} {defs last : Defs}
    (h : checkBlocks idoms label defs bs = .ok last) :
    ∃ table : Nat → Defs, table 0 = defs ∧ ∀ (k : Nat) b, bs[k]? = some b → b.label = (label + k : Nat) ∧
      b.instrs ≠ [] ∧ checkInstrs idoms (label + k) (table k) b.instrs = .ok (table (k + 1)) := by
  induction bs generalizing label defs with
  | nil => exact ⟨fun _ => defs, rfl, by simp⟩
  | cons b rest ih =>
    obtain ⟨mid, hl, hne, hi, hr⟩ := checkBlocks_cons_ok.mp h
    obtain ⟨table, h0, htable⟩ := ih hr
    refine ⟨fun k => k.casesOn defs table, rfl, ?_⟩
    intro k b' hb'
    cases k with
    | zero =>
      cases hb'
      refine ⟨by simpa using hl, hne, ?_⟩
      simp only [h0]
      exact hi
    | succ k =>
      simp only [List.getElem?_cons_succ] at hb'
      have := htable k b' hb'
      rw [show label + (k + 1) = label + 1 + k by omega]
      exact this

theorem checkBlocks_of_tables {label : Nat} (table : Nat → Defs)
    (h : ∀ (k : Nat) b, bs[k]? = some b → b.label = (label + k : Nat) ∧
      b.instrs ≠ [] ∧ checkInstrs idoms (label + k) (table k) b.instrs = .ok (table (k + 1))) :
    checkBlocks idoms label (table 0) bs = .ok (table bs.length) := by
  induction bs generalizing label table with
  | nil => rfl
  | cons b rest ih =>
    obtain ⟨hl, hne, hi⟩ := h 0 b rfl
    refine checkBlocks_cons_ok.mpr ⟨table 1, hl, hne, hi, ?_⟩
    refine ih (fun k => table (k + 1)) fun k b' hb' => ?_
    have := h (k + 1) b' (by simpa using hb')
    rw [show label + (k + 1) = label + 1 + k by omega] at this
    exact this

end Typing

namespace Graph

/-- An accepted graph is not empty, its variables have room, and it has the tables of the checker. -/
theorem typecheck_eq_accepted :
    g.typecheck = .accepted ↔ g.blocks.size ≠ 0 ∧ g.hasRoomFor 8 = true ∧ Nonempty g.Typed := by
  unfold typecheck
  have hempty : g.blocks.isEmpty = true ↔ g.blocks.size = 0 := by simp
  by_cases h0 : g.blocks.size = 0
  · rw [if_pos (hempty.mpr h0)]
    simp [h0]
  · rw [if_neg (fun h => h0 (hempty.mp h))]
    by_cases hroom : g.hasRoomFor 8 = true
    · simp only [hroom, Bool.not_true, Bool.false_eq_true, if_false]
      have hcheck : g.check = .ok () ↔ Nonempty g.Typed := by
        simp only [check, Except.bind_eq_ok, Except.mapError_eq_ok]
        constructor
        · rintro ⟨idoms, hd, last, hb, -⟩
          obtain ⟨table, hstart, htable⟩ := Typing.checkBlocks_tables hb
          refine ⟨⟨idoms, table, hd, hstart, ?_⟩⟩
          intro k b hkb
          have := htable k b (by simpa using hkb)
          simpa using this
        · rintro ⟨T⟩
          refine ⟨T.idoms, T.dominators, T.defs g.blocks.toList.length, ?_, rfl⟩
          rw [← T.start]
          refine Typing.checkBlocks_of_tables T.defs fun k b hkb => ?_
          have := T.block (k := k) (b := b) (by simpa using hkb)
          simpa using this
      rw [← hcheck]
      cases g.check with
      | ok u => simp [h0]
      | error e => simp
    · simp [hroom]

namespace Typed

variable {k j v : Nat}

variable (T : g.Typed)

theorem extends_succ (hk : k < g.blocks.size) : Typing.Extends k (T.defs k) (T.defs (k + 1)) :=
  Typing.checkInstrs_extends (T.block (getElem?_eq_getElem hk)).2.2

theorem size_defs (hk : k ≤ g.blocks.size) : (T.defs k).size = g.varCount.toNat := by
  induction k with
  | zero => rw [T.start, size_replicate]
  | succ k ih => rw [(T.extends_succ (by omega)).size, ih (by omega)]

theorem defs_mono (hjk : j ≤ k) (hk : k ≤ g.blocks.size) (h : (T.defs j)[v]? = some (some p)) :
    (T.defs k)[v]? = some (some p) := by
  induction k, hjk using Nat.le_induction with
  | base => exact h
  | succ k _ ih => exact (T.extends_succ (by omega)).keep (ih (by omega))

/-- The table before block `k` has the entries of block `j < k` from the end of that block on. -/
theorem defs_of_lt (hjk : j ≤ k) (hk : k ≤ g.blocks.size) (h : (T.defs k)[v]? = some (some p))
    (hp : p.1 < j) : (T.defs j)[v]? = some (some p) := by
  induction k, hjk using Nat.le_induction with
  | base => exact h
  | succ k hle ih =>
    rcases (T.extends_succ (by omega)).new h with h | h
    · exact ih (by omega) h
    · omega

/-- The table before block `k` has entries of earlier blocks only. -/
theorem defs_lt (hk : k ≤ g.blocks.size) (h : (T.defs k)[v]? = some (some p)) : p.1 < k := by
  induction k with
  | zero =>
    rw [T.start, getElem?_replicate] at h
    split_ifs at h
    simp at h
  | succ k ih =>
    rcases (T.extends_succ (by omega)).new h with h | h
    · exact (ih (by omega) h).trans (by omega)
    · omega

end Typed

end Graph

def Instr.IsSlotFree (i : Instr) : Prop :=
  ∀ t, i.op ≠ .alloc t

def Block.IsSlotFree (b : Block) : Prop :=
  ∀ i ∈ b.instrs, i.IsSlotFree

def Graph.IsSlotFree (g : Graph) : Prop :=
  ∀ {k : Nat} {b : Block}, g.blocks[k]? = some b → b.IsSlotFree

def Value.InRange (count : Int) : Value → Prop
  | const _ _ => True
  | var _ n => 0 ≤ n ∧ n < count

instance (count : Int) : DecidablePred (Value.InRange count)
  | .const _ _ => .isTrue trivial
  | .var _ n => inferInstanceAs (Decidable (0 ≤ n ∧ n < count))

/-- The variables that the instruction uses and defines are below `count`. -/
def Instr.InRange (count : Int) (i : Instr) : Prop :=
  (∀ v ∈ i.op.operands, v.InRange count) ∧ (i.hasResult = true → i.result.InRange count)

instance (count : Int) (i : Instr) : Decidable (i.InRange count) :=
  inferInstanceAs (Decidable (_ ∧ _))

def Graph.InRange (g : Graph) : Prop :=
  ∀ i ∈ g.instrs, i.InRange g.varCount

instance (g : Graph) : Decidable g.InRange :=
  inferInstanceAs (Decidable (∀ i ∈ g.instrs, i.InRange g.varCount))

theorem Graph.mem_instrs {k : Nat} {b : Block} (hb : g.blocks[k]? = some b) (hi : i ∈ b.instrs) :
    i ∈ g.instrs := by
  have : b ∈ g.blocks.toList := by
    rw [mem_toList_iff]
    exact mem_of_getElem? hb
  exact List.mem_flatMap.mpr ⟨b, this, hi⟩

theorem Graph.exists_block (hi : i ∈ g.instrs) :
    ∃ (k : Nat) (b : Block), g.blocks[k]? = some b ∧ i ∈ b.instrs := by
  obtain ⟨b, hb, hib⟩ := List.mem_flatMap.mp hi
  obtain ⟨k, hk, rfl⟩ := mem_iff_getElem.mp (mem_toList_iff.mp hb)
  exact ⟨k, _, getElem?_eq_getElem hk, hib⟩

end Dynarec
