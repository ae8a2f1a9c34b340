import Dynarec.Native.Layout
import Dynarec.Proofs.Graph.Safety

/-!
# Homes that do not collide

Instructions are numbered in label order, which is also the order in which every run goes through
them. A variable is needed at most up to its last use in that order. Allocation keeps the register
of a variable until then, so a variable that takes the same register later takes it when the first
one is not needed any more; in the frame no two variables share a byte. `Allots` is the invariant of
the allocation, `Homes.Sound` what it comes to.
-/
namespace Dynarec.Native

open Machine (Reg)
open List

variable {g : Graph} {k u size spilled : Nat} {i : Dynarec.Instr} {t : Ty} {id : Int}
  {rest : List Dynarec.Instr} {home : Home} {r : Reg} {P : Homes → Prop}

section Numbers

def index (g : Graph) (p : Place) : Nat :=
  Layout.firstIndex g p.label + p.offset

theorem getElem?_flatMap_instrs (bs : List Block) (k n : Nat) {b : Block} (hb : bs[k]? = some b)
    (hn : n < b.instrs.length) :
    (bs.flatMap Block.instrs)[((bs.take k).map fun b => b.instrs.length).foldr (· + ·) 0 + n]? =
      b.instrs[n]? := by
  induction bs generalizing k with
  | nil => cases hb
  | cons b' bs ih =>
    cases k with
    | zero =>
      obtain rfl : b' = b := by simpa using hb
      simp [getElem?_append_left hn]
    | succ k =>
      rw [getElem?_cons_succ] at hb
      rw [take_succ_cons, map_cons, foldr_cons, flatMap_cons,
        getElem?_append_right (by omega), ← ih k hb]
      congr 1
      omega

theorem instrs_index {p : Place} (hi : g.instrAt? p = some i) : g.instrs[index g p]? = some i := by
  obtain ⟨b, hb, hbi⟩ := Graph.instrAt?_eq_some.mp hi
  have hn := (List.getElem?_eq_some_iff.mp hbi).1
  rw [← Array.getElem?_toList] at hb
  rw [← hbi, ← getElem?_flatMap_instrs _ _ _ hb hn]
  rfl

theorem firstIndex_succ {b : Block} (hb : g.blocks[k]? = some b) :
    Layout.firstIndex g (k + 1) = Layout.firstIndex g k + b.instrs.length := by
  rw [← Array.getElem?_toList] at hb
  obtain ⟨hlt, hb⟩ := List.getElem?_eq_some_iff.mp hb
  show List.sum _ = List.sum _ + _
  rw [List.take_succ_eq_append_getElem hlt, List.map_append, List.sum_append, hb]
  simp

theorem firstIndex_mono (g : Graph) {l : Nat} (h : k ≤ l) :
    Layout.firstIndex g k ≤ Layout.firstIndex g l := by
  induction l, h using Nat.le_induction with
  | base => exact le_rfl
  | succ l _ ih =>
    refine ih.trans ?_
    cases hb : g.blocks[l]? with
    | some b =>
      rw [firstIndex_succ hb]
      omega
    | none =>
      have hge : g.blocks.toList.length ≤ l := by
        rw [← Array.getElem?_toList, getElem?_eq_none_iff] at hb
        exact hb
      unfold Layout.firstIndex
      rw [take_of_length_le hge, take_of_length_le (by omega)]

theorem index_lt {p q : Place} (hi : g.instrAt? p = some i) (hpq : p.Before q) :
    index g p < index g q := by
  obtain ⟨b, hb, hbi⟩ := Graph.instrAt?_eq_some.mp hi
  have hn := (List.getElem?_eq_some_iff.mp hbi).1
  unfold index
  rcases hpq with hlt | ⟨hlabel, hlt⟩
  · have hnext := firstIndex_succ hb
    have hmono := firstIndex_mono g (show p.label + 1 ≤ q.label from hlt)
    omega
  · rw [hlabel]
    omega

theorem exists_flatMap_instrs (bs : List Block) (hi : (bs.flatMap Block.instrs)[k]? = some i) :
    ∃ l n b, bs[l]? = some b ∧ b.instrs[n]? = some i ∧
      ((bs.take l).map fun b => b.instrs.length).foldr (· + ·) 0 + n = k := by
  induction bs generalizing k with
  | nil => cases hi
  | cons b bs ih =>
    rw [flatMap_cons] at hi
    by_cases hk : k < b.instrs.length
    · rw [getElem?_append_left hk] at hi
      exact ⟨0, k, b, rfl, hi, by simp⟩
    · rw [getElem?_append_right (by omega)] at hi
      obtain ⟨l, n, b', hb', hn, hsum⟩ := ih hi
      refine ⟨l + 1, n, b', hb', hn, ?_⟩
      rw [take_succ_cons, map_cons, foldr_cons]
      omega

theorem exists_place (hi : g.instrs[k]? = some i) : ∃ p, g.instrAt? p = some i ∧ index g p = k := by
  obtain ⟨l, n, b, hb, hn, hsum⟩ := exists_flatMap_instrs _ hi
  rw [Array.getElem?_toList] at hb
  exact ⟨⟨l, n⟩, Graph.instrAt?_eq_some.mpr ⟨b, hb, hn⟩, hsum⟩

end Numbers

namespace Lives

/-- The number of the last instruction that needs a variable. -/
def endOf (l : Lives) (v : Nat) : Nat :=
  (l.ends[v]?).getD 0

variable {l l' : Lives}

/-- Ends of lives have moved forward, but not behind `k`. -/
structure Advances (k : Nat) (l l' : Lives) : Prop where
  size : l'.ends.size = l.ends.size
  mono : ∀ v, l.endOf v ≤ l'.endOf v
  bound : ∀ v, l'.endOf v ≤ k

theorem Advances.trans {l'' : Lives} (h : Advances k l l') (h' : Advances k l' l'') :
    Advances k l l'' :=
  ⟨h'.size.trans h.size, fun v => (h.mono v).trans (h'.mono v), h'.bound⟩

theorem endOf_setIfInBounds (l : Lives) (u v k : Nat) :
    ((l.ends.setIfInBounds u k)[v]?).getD 0 =
      if u = v ∧ v < l.ends.size then k else l.endOf v := by
  rw [Array.getElem?_setIfInBounds]
  unfold endOf
  split_ifs with huv hlt hboth hboth hboth
  · rfl
  · exact absurd ⟨huv, huv ▸ hlt⟩ hboth
  · exact absurd (huv ▸ hboth.2) hlt
  · rw [Array.getElem?_eq_none (by omega)]
  · exact absurd hboth.1 huv
  · rfl

theorem advances_use (hb : ∀ v, l.endOf v ≤ k) (v : Value) : Advances k l (use k l v) := by
  cases v with
  | const t x => exact ⟨rfl, fun _ => le_rfl, hb⟩
  | var t id =>
    have hend (v : Nat) : (use k l (.var t id)).endOf v =
        if id.toNat = v ∧ v < l.ends.size then k else l.endOf v := endOf_setIfInBounds ..
    refine ⟨Array.size_setIfInBounds, fun v => ?_, fun v => ?_⟩
    · rw [hend]
      split_ifs
      · exact hb v
      · exact le_rfl
    · rw [hend]
      split_ifs
      · exact le_rfl
      · exact hb v

theorem advances_uses (hb : ∀ v, l.endOf v ≤ k) (vs : List Value) :
    Advances k l (vs.foldl (use k) l) ∧
      ∀ t id, .var t id ∈ vs → id.toNat < l.ends.size →
        k ≤ (vs.foldl (use k) l).endOf id.toNat := by
  induction vs generalizing l with
  | nil => exact ⟨⟨rfl, fun _ => le_rfl, hb⟩, by simp⟩
  | cons v vs ih =>
    have hfirst := advances_use hb v
    obtain ⟨hrest, huses⟩ := ih hfirst.bound
    refine ⟨hfirst.trans hrest, fun t id hid hlt => ?_⟩
    rcases mem_cons.mp hid with rfl | hid
    · refine le_trans (le_of_eq ?_) (hrest.mono _)
      exact ((endOf_setIfInBounds ..).trans (if_pos ⟨rfl, hlt⟩)).symm
    · exact huses t id hid (hfirst.size ▸ hlt)

theorem advances_define (hb : ∀ v, l.endOf v ≤ k) (hlt : i.res.toNat < l.ends.size) :
    Advances k l (l.define k i) ∧ k ≤ (l.define k i).endOf i.res.toNat := by
  have hend (v : Nat) : (l.define k i).endOf v =
      if i.res.toNat = v then max k (l.endOf v) else l.endOf v := by
    show (((l.ends.modify i.res.toNat (max k))[v]?).getD 0) = _
    rw [Array.getElem?_modify]
    unfold endOf
    split_ifs with hv
    · subst hv
      rw [Array.getElem?_eq_getElem hlt]
      rfl
    · rfl
  refine ⟨⟨Array.size_modify, fun v => ?_, fun v => ?_⟩, ?_⟩
  · rw [hend]
    split_ifs
    · exact le_max_right _ _
    · exact le_rfl
  · rw [hend]
    split_ifs
    · exact max_le le_rfl (hb v)
    · exact hb v
  · rw [hend, if_pos rfl]
    exact le_max_left _ _

theorem lt_of_declares (h : l.declares id = true) : id.toNat < l.ends.size := by
  simp only [declares, Bool.and_eq_true, decide_eq_true_eq] at h
  omega

theorem undeclared_eq_none {vs : List Value} (h : l.undeclared vs = none) (hid : .var t id ∈ vs) :
    id.toNat < l.ends.size := by
  rw [undeclared, getLast?_eq_none_iff, filterMap_eq_nil_iff] at h
  have hdecl : l.declares id = true := by
    by_contra hno
    simpa [hno] using h _ hid
  exact lt_of_declares hdecl

theorem size_uses (l : Lives) (k : Nat) (vs : List Value) :
    (vs.foldl (use k) l).ends.size = l.ends.size ∧ (vs.foldl (use k) l).defs = l.defs := by
  induction vs generalizing l with
  | nil => exact ⟨rfl, rfl⟩
  | cons x vs ih =>
    obtain ⟨hsize, hdefs⟩ := ih (use k l x)
    rw [foldl_cons, hsize, hdefs]
    cases x with
    | const t word => exact ⟨rfl, rfl⟩
    | var t id => exact ⟨Array.size_setIfInBounds, rfl⟩

/-- What an instruction does: its operands are used, and its result is defined if it has one. -/
theorem instr_cases (h : l.instr k i = .ok l') : l.undeclared i.op.operands = none ∧
    (i.hasResult = false ∧ l' = i.op.operands.foldl (use k) l ∨
      i.hasResult = true ∧ i.res.toNat < l.ends.size ∧
        l' = (i.op.operands.foldl (use k) l).define k i) := by
  unfold instr at h
  cases hun : l.undeclared i.op.operands with
  | some id => simp [hun] at h
  | none =>
    refine ⟨rfl, ?_⟩
    simp only [hun] at h
    split_ifs at h with hno hdecl
    · cases h
      exact Or.inl ⟨by simpa using hno, rfl⟩
    · cases h
      have hlt := lt_of_declares (by simpa using hdecl)
      rw [(size_uses l k i.op.operands).1] at hlt
      exact Or.inr ⟨by simpa using hno, hlt, rfl⟩

theorem instr_ok (h : l.instr k i = .ok l') (hb : ∀ v, l.endOf v ≤ k) :
    Advances k l l' ∧ (∀ t id, .var t id ∈ i.op.operands → k ≤ l'.endOf id.toNat) ∧
      (i.hasResult = true → k ≤ l'.endOf i.res.toNat) := by
  obtain ⟨hun, hcases⟩ := instr_cases h
  obtain ⟨hadv, huses⟩ := advances_uses hb i.op.operands
  have huses' : ∀ t id, .var t id ∈ i.op.operands →
      k ≤ (i.op.operands.foldl (use k) l).endOf id.toNat :=
    fun t id hid => huses t id hid (undeclared_eq_none hun hid)
  rcases hcases with ⟨hno, rfl⟩ | ⟨-, hlt, rfl⟩
  · exact ⟨hadv, huses', fun hyes => by simp [hno] at hyes⟩
  · obtain ⟨hdef, hres⟩ := advances_define hadv.bound (hadv.size.symm ▸ hlt)
    exact ⟨hadv.trans hdef, fun t id hid => (huses' t id hid).trans (hdef.mono _), fun _ => hres⟩

theorem instrs_ok (h : l.instrs k rest = .ok l') (hb : ∀ v, l.endOf v ≤ k) :
    l'.ends.size = l.ends.size ∧ (∀ v, l.endOf v ≤ l'.endOf v) ∧
      ∀ j i, rest[j]? = some i →
        (∀ t id, .var t id ∈ i.op.operands → k + j ≤ l'.endOf id.toNat) ∧
        (i.hasResult = true → k + j ≤ l'.endOf i.res.toNat) := by
  induction rest generalizing l k with
  | nil =>
    cases h
    exact ⟨rfl, fun _ => le_rfl, by simp⟩
  | cons i rest ih =>
    obtain ⟨mid, hmid, h⟩ := Except.bind_eq_ok.mp h
    obtain ⟨hadv, huses, hres⟩ := instr_ok hmid hb
    obtain ⟨hsize, hmono, hrest⟩ := ih h fun v => (hadv.bound v).trans (Nat.le_succ k)
    refine ⟨hsize.trans hadv.size, fun v => (hadv.mono v).trans (hmono v), fun j i' hi' => ?_⟩
    cases j with
    | zero =>
      obtain rfl : i = i' := by simpa using hi'
      exact ⟨fun t id hid => (huses t id hid).trans (hmono _),
        fun hyes => (hres hyes).trans (hmono _)⟩
    | succ j =>
      obtain ⟨huses', hres'⟩ := hrest j i' (by simpa using hi')
      rw [show k + (j + 1) = k + 1 + j by omega]
      exact ⟨huses', hres'⟩

end Lives

def Defines (is : List Dynarec.Instr) (k v : Nat) : Prop :=
  ∃ i, is[k]? = some i ∧ i.hasResult = true ∧ i.res.toNat = v

/-- Instructions that can be given homes: each variable is defined once and takes 1, 2, 4 or 8
bytes. -/
structure Plain (is : List Dynarec.Instr) (n : Nat) : Prop where
  once : ∀ {j k v}, Defines is j v → Defines is k v → j = k
  declared : ∀ {k v}, Defines is k v → v < n
  sized : ∀ {k : Nat} {i : Dynarec.Instr}, is[k]? = some i → i.hasResult = true → i.ty.bytes ∣ 8
  slotted : ∀ {k : Nat} {i : Dynarec.Instr} {t}, is[k]? = some i → i.op = .alloc t → t.bytes ∣ 8

namespace Home

/-- What a home takes of the frame: the displacement of its lowest byte, and its size. -/
def range? : Home → Option (Int × Nat)
  | spill disp size | slot disp size => some (disp, size)
  | none | reg _ => Option.none

/-- The kinds of home that the result of an instruction can have. -/
def Suits (home : Home) (i : Dynarec.Instr) : Prop :=
  match i.op with
  | .alloc t => ∃ disp, home = .slot disp t.bytes
  | _ => (∃ r, home = .reg r) ∨ ∃ disp, home = .spill disp i.ty.bytes

theorem suits_of_alloc (hop : i.op = .alloc t) :
    home.Suits i ↔ ∃ disp, home = .slot disp t.bytes := by
  simp only [Suits, hop]

theorem suits_of_not_alloc (hop : ∀ t, i.op ≠ .alloc t) :
    home.Suits i ↔ (∃ r, home = .reg r) ∨ ∃ disp, home = .spill disp i.ty.bytes := by
  unfold Suits
  split
  · exact absurd ‹_› (hop _)
  · exact Iff.rfl

end Home

namespace Homes

variable {h h' : Homes} {p p' : Holders} {is : List Dynarec.Instr} {n : Nat}

section Take

theorem take_eq_some {v : Nat} {rs : List Reg} {p p' : Holders} (ht : take v rs p = some (r, p')) :
    ∃ n, rs[n]? = some r ∧ p[n]? = some none ∧ p' = p.set n (some v) := by
  induction rs generalizing p p' with
  | nil => cases p <;> cases ht
  | cons r' rs ih =>
    cases p with
    | nil => cases ht
    | cons holder p =>
      cases holder with
      | none =>
        cases ht
        exact ⟨0, rfl, rfl, rfl⟩
      | some u =>
        simp only [take, Option.map_eq_some_iff] at ht
        obtain ⟨⟨r'', p''⟩, ht, he⟩ := ht
        cases he
        obtain ⟨n, hn, hfree, rfl⟩ := ih ht
        exact ⟨n + 1, hn, hfree, rfl⟩

theorem take_eq_none {v : Nat} {rs : List Reg} {p : Holders} (ht : take v rs p = none)
    (hlen : p.length = rs.length) {m : Nat} (hm : m < rs.length) :
    ∃ u, p[m]? = some (some u) := by
  induction rs generalizing p m with
  | nil => cases hm
  | cons r rs ih =>
    cases p with
    | nil => cases hlen
    | cons holder p =>
      cases holder with
      | none => cases ht
      | some u =>
        cases m with
        | zero => exact ⟨u, rfl⟩
        | succ m =>
          simp only [take, Option.map_eq_none_iff] at ht
          exact ih ht (Nat.succ.inj hlen) (Nat.lt_of_succ_lt_succ hm)

/-- A register stays with a variable that is still needed. -/
theorem release_eq_some {m v : Nat} (hv : p[m]? = some (some v)) :
    (h.release k p)[m]? = some (some v) ∨ h.lives.endOf v ≤ k := by
  by_cases hend : h.lives.endOf v ≤ k
  · exact Or.inr hend
  · refine Or.inl ?_
    rw [release, getElem?_map, hv]
    exact congrArg some (if_neg hend)

/-- Who has kept a register needs it. -/
theorem of_release_eq_some {m v : Nat} (hv : (h.release k p)[m]? = some (some v)) :
    p[m]? = some (some v) ∧ k < h.lives.endOf v := by
  rw [release, getElem?_map] at hv
  obtain ⟨holder, hholder, hkept⟩ := Option.map_eq_some_iff.mp hv
  cases holder with
  | none => cases hkept
  | some u =>
    have hkept' : (if h.lives.endOf u ≤ k then none else some u) = some v := hkept
    split_ifs at hkept' with hend
    cases hkept'
    exact ⟨hholder, not_le.mp hend⟩

end Take

theorem reserve_spec (hsize : size ∣ 8) (h : Homes) :
    ∃ off, h.frame ≤ off ∧ size ∣ off ∧ h.reserve size =
      (-((savedSize + off + size : Nat) : Int), { h with frame := off + size }) := by
  refine ⟨_, ?_, Nat.dvd_mul_left _ _, rfl⟩
  have hmod := Nat.mod_lt (h.frame + size - 1) (Nat.pos_of_dvd_of_pos hsize (by decide))
  have hdiv := Nat.div_add_mod (h.frame + size - 1) size
  rw [Nat.mul_comm] at hdiv
  omega

def homeOf (h : Homes) (v : Nat) : Home :=
  (h.homes[v]?).getD .none

theorem homeOf_put (hu : u < h.homes.size) (home : Home) (v : Nat) :
    ((h.homes.setIfInBounds u home)[v]?).getD .none = if u = v then home else h.homeOf v := by
  rw [Array.getElem?_setIfInBounds]
  by_cases huv : u = v
  · simp [huv, huv ▸ hu]
  · simp [huv, homeOf]

/-- Register `r` is the home of a variable that is defined before instruction `k` and needed after
it. -/
def Busy (is : List Dynarec.Instr) (h : Homes) (k : Nat) (r : Reg) : Prop :=
  ∃ v, (∃ j < k, Defines is j v) ∧ h.homeOf v = .reg r ∧ k < h.lives.endOf v

/-- The allocation has come to instruction `k`. -/
structure Allots (is : List Dynarec.Instr) (k : Nat) (h : Homes) (p : Holders) : Prop where
  given : ∀ {v}, h.homeOf v ≠ .none → ∃ j < k, Defines is j v
  settled : ∀ {j : Nat} {i : Dynarec.Instr}, j < k → is[j]? = some i → i.hasResult = true →
    (h.homeOf i.res.toNat).Suits i
  /-- Only where no register is free a variable lives in the frame. -/
  spilled : ∀ {j : Nat} {i : Dynarec.Instr}, j < k → is[j]? = some i → i.hasResult = true →
    (∀ t, i.op ≠ .alloc t) →
      ((∃ disp, h.homeOf i.res.toNat = .spill disp i.ty.bytes) ↔ ∀ r ∈ pool, Busy is h j r)
  length : p.length = pool.length
  /-- A register is held by its variable, or the variable is not needed any more. -/
  held : ∀ {v r}, h.homeOf v = .reg r →
    ∃ m : Nat, pool[m]? = some r ∧ (p[m]? = some (some v) ∨ h.lives.endOf v < k)
  holds : ∀ {m v : Nat}, p[m]? = some (some v) → ∃ r, pool[m]? = some r ∧ h.homeOf v = .reg r
  /-- Who takes a register takes it from nobody who needs it. -/
  apart : ∀ {j j' v v' r}, j < j' → j' < k → Defines is j v → Defines is j' v' →
    h.homeOf v = .reg r → h.homeOf v' = .reg r → h.lives.endOf v ≤ j'
  inside : ∀ {v disp size}, (h.homeOf v).range? = some (disp, size) →
    -((savedSize + h.frame : Nat) : Int) ≤ disp ∧ disp + size ≤ -(savedSize : Int)
  disjoint : ∀ {v v' disp disp' size size'}, v ≠ v' → (h.homeOf v).range? = some (disp, size) →
    (h.homeOf v').range? = some (disp', size') → disp + size ≤ disp' ∨ disp' + size' ≤ disp

section Step

theorem Allots.release (H : Allots is k h p) (hi : is[k]? = some i) (hno : i.hasResult = false) :
    Allots is (k + 1) h (h.release k p) := by
  have hdef {v : Nat} : ¬ Defines is k v := by
    rintro ⟨i', hi', hyes, -⟩
    cases hi.symm.trans hi'
    simp [hno] at hyes
  have hlt {j : Nat} {i' : Dynarec.Instr} (hj : j < k + 1) (hi' : is[j]? = some i')
      (hyes : i'.hasResult = true) : j < k := by
    refine lt_of_le_of_ne (by omega) ?_
    rintro rfl
    exact hdef ⟨i', hi', hyes, rfl⟩
  refine ⟨fun hne => ?_, fun hj hi' hyes => H.settled (hlt hj hi' hyes) hi' hyes,
    fun hj hi' hyes => H.spilled (hlt hj hi' hyes) hi' hyes, ?_, fun hv => ?_,
    fun hv => H.holds (of_release_eq_some hv).1, ?_, H.inside, H.disjoint⟩
  · obtain ⟨j, hj, hd⟩ := H.given hne
    exact ⟨j, by omega, hd⟩
  · rw [Homes.release, length_map, H.length]
  · obtain ⟨m, hm, hheld | hend⟩ := H.held hv
    · exact ⟨m, hm, (release_eq_some hheld).imp_right Nat.lt_succ_of_le⟩
    · exact ⟨m, hm, Or.inr (by omega)⟩
  · intro j j' v v' r hjj hj' hv hv'
    refine H.apart hjj (lt_of_le_of_ne (by omega) ?_) hv hv'
    rintro rfl
    exact hdef hv'

/-- A home for the result of instruction `k`: a register that nobody needs, or room behind the
frame. -/
theorem Allots.extend (H : Allots is k h p) (hplain : Plain is h.homes.size) (hi : is[k]? = some i)
    (hyes : i.hasResult = true) {frame : Nat} (hframe : h.frame ≤ frame) (hkind : home.Suits i)
    (hspilled : (∀ t, i.op ≠ .alloc t) →
      ((∃ disp, home = .spill disp i.ty.bytes) ↔ ∀ r ∈ pool, Busy is h k r))
    (hlength : p'.length = pool.length) (hheld : ∀ {u r}, h.homeOf u = .reg r →
      ∃ m : Nat, pool[m]? = some r ∧ (p'[m]? = some (some u) ∨ h.lives.endOf u < k + 1))
    (hholds : ∀ {m u : Nat}, p'[m]? = some (some u) → p[m]? = some (some u) ∨
      i.res.toNat = u ∧ ∃ r, pool[m]? = some r ∧ home = .reg r) (hreg : ∀ {r}, home = .reg r →
      (∃ m : Nat, pool[m]? = some r ∧ p'[m]? = some (some i.res.toNat)) ∧
      ∀ {u}, h.homeOf u = .reg r → h.lives.endOf u ≤ k)
    (hrange : ∀ {disp size}, home.range? = some (disp, size) →
      -((savedSize + frame : Nat) : Int) ≤ disp ∧
      disp + size ≤ -((savedSize + h.frame : Nat) : Int)) :
    Allots is (k + 1)
      { h with homes := h.homes.setIfInBounds i.res.toNat home, frame, spilled } p' := by
  have hdef : Defines is k i.res.toNat := ⟨i, hi, hyes, rfl⟩
  have hlt := hplain.declared hdef
  let h' : Homes := { h with homes := h.homes.setIfInBounds i.res.toNat home, frame, spilled }
  have hget (v : Nat) : h'.homeOf v = if i.res.toNat = v then home else h.homeOf v :=
    homeOf_put hlt home v
  have hres : h'.homeOf i.res.toNat = home := by rw [hget, if_pos rfl]
  have hold {j v : Nat} (hj : j < k) (hv : Defines is j v) : h'.homeOf v = h.homeOf v := by
    rw [hget, if_neg]
    rintro rfl
    exact absurd (hplain.once hv hdef) (by omega)
  have hbusy {j : Nat} (hj : j ≤ k) (r : Reg) : Busy is h' j r ↔ Busy is h j r := by
    refine exists_congr fun v => and_congr_right ?_
    rintro ⟨j', hj', hv⟩
    rw [hold (by omega) hv]
  -- what has a home from before was defined before, what has a new one is the result
  have hsplit (v : Nat) : i.res.toNat = v ∧ h'.homeOf v = home ∨
      i.res.toNat ≠ v ∧ h'.homeOf v = h.homeOf v := by
    rw [hget]
    split_ifs with hv
    · exact Or.inl ⟨hv, rfl⟩
    · exact Or.inr ⟨hv, rfl⟩
  refine ⟨fun {v} hne => ?_, fun {j i'} hj hi' hyes' => ?_, fun {j i'} hj hi' hyes' hop => ?_,
    hlength, fun {v r} hv => ?_, fun {m v} hv => ?_, ?_, fun {v disp size} hv => ?_, ?_⟩
  · rcases hsplit v with ⟨rfl, -⟩ | ⟨-, hv⟩
    · exact ⟨k, by omega, hdef⟩
    · obtain ⟨j, hj, hd⟩ := H.given (hv ▸ hne)
      exact ⟨j, by omega, hd⟩
  · show (h'.homeOf _).Suits i'
    rcases Nat.lt_succ_iff_lt_or_eq.mp hj with hj | rfl
    · rw [hold hj ⟨i', hi', hyes', rfl⟩]
      exact H.settled hj hi' hyes'
    · cases hi.symm.trans hi'
      rwa [hres]
  · show (∃ disp, h'.homeOf _ = _) ↔ ∀ r ∈ pool, Busy is h' j r
    simp only [hbusy (Nat.lt_succ_iff.mp hj)]
    rcases Nat.lt_succ_iff_lt_or_eq.mp hj with hj | rfl
    · rw [hold hj ⟨i', hi', hyes', rfl⟩]
      exact H.spilled hj hi' hyes' hop
    · cases hi.symm.trans hi'
      rw [hres]
      exact hspilled hop
  · change h'.homeOf v = .reg r at hv
    rcases hsplit v with ⟨rfl, hnew⟩ | ⟨-, hsame⟩
    · obtain ⟨⟨m, hm, hp⟩, -⟩ := hreg (hnew.symm.trans hv)
      exact ⟨m, hm, Or.inl hp⟩
    · exact hheld (hsame.symm.trans hv)
  · show ∃ r, pool[m]? = some r ∧ h'.homeOf v = .reg r
    rcases hholds hv with hv | ⟨rfl, r, hm, rfl⟩
    · obtain ⟨r, hm, hr⟩ := H.holds hv
      obtain ⟨j, hj, hd⟩ := H.given (v := v) (by rw [hr]; simp)
      exact ⟨r, hm, by rw [hold hj hd, hr]⟩
    · exact ⟨r, hm, hres⟩
  · intro j j' v v' r hjj hj' hv hv' hr hr'
    change h'.homeOf v = .reg r at hr
    change h'.homeOf v' = .reg r at hr'
    rw [hold (by omega) hv] at hr
    rcases Nat.lt_succ_iff_lt_or_eq.mp hj' with hj' | rfl
    · rw [hold hj' hv'] at hr'
      exact H.apart hjj hj' hv hv' hr hr'
    · obtain ⟨i', hi', -, rfl⟩ := hv'
      cases hi.symm.trans hi'
      exact (hreg (hres.symm.trans hr')).2 hr
  · change (h'.homeOf v).range? = some (disp, size) at hv
    rcases hsplit v with ⟨rfl, hnew⟩ | ⟨-, hsame⟩
    · have := hrange (hnew ▸ hv)
      simp only
      omega
    · have := H.inside (hsame ▸ hv)
      simp only
      omega
  · intro v v' disp disp' size size' hne hv hv'
    change (h'.homeOf v).range? = some (disp, size) at hv
    change (h'.homeOf v').range? = some (disp', size') at hv'
    rcases hsplit v with ⟨hv₀, hnew⟩ | ⟨-, hsame⟩
    · rcases hsplit v' with ⟨hv₀', -⟩ | ⟨-, hsame'⟩
      · exact absurd (hv₀.symm.trans hv₀') hne
      · have := hrange (hnew ▸ hv)
        have := H.inside (hsame' ▸ hv')
        omega
    · rcases hsplit v' with ⟨-, hnew'⟩ | ⟨-, hsame'⟩
      · have := hrange (hnew' ▸ hv')
        have := H.inside (hsame ▸ hv)
        omega
      · exact H.disjoint hne (hsame ▸ hv) (hsame' ▸ hv')

theorem settle_of_slot (hop : i.op = .alloc t) (h : Homes) (p : Holders) :
    h.settle p i = ((h.reserve t.bytes).2.put i.res.toNat
      (.slot (h.reserve t.bytes).1 t.bytes), p) := by
  simp only [settle, hop]

theorem settle_of_noSlot (hop : ∀ t, i.op ≠ .alloc t) (h : Homes) (p : Holders) :
    h.settle p i =
      match take i.res.toNat pool p with
      | some (r, p) => (h.put i.res.toNat (.reg r), p)
      | none =>
          ({ (h.reserve i.ty.bytes).2.put i.res.toNat
              (.spill (h.reserve i.ty.bytes).1 i.ty.bytes) with
            spilled := (h.reserve i.ty.bytes).2.spilled + 1 }, p) := by
  unfold settle
  split
  · exact absurd ‹_› (hop _)
  · rfl

section Settle

variable (H : Allots is k h p) (hplain : Plain is h.homes.size) (hi : is[k]? = some i)
  (hyes : i.hasResult = true)
include H

theorem Allots.held_release (hu : h.homeOf u = .reg r) :
    ∃ m : Nat, pool[m]? = some r ∧
      ((h.release k p)[m]? = some (some u) ∨ h.lives.endOf u < k + 1) := by
  obtain ⟨m, hm, hheld | hend⟩ := H.held hu
  · exact ⟨m, hm, (release_eq_some hheld).imp_right Nat.lt_succ_of_le⟩
  · exact ⟨m, hm, Or.inr (by omega)⟩

theorem Allots.length_release : (h.release k p).length = pool.length := by
  rw [Homes.release, length_map, H.length]

/-- A register that was not given back is busy. -/
theorem Allots.busy_of_release {m : Nat} (hm : pool[m]? = some r)
    (hu : (h.release k p)[m]? = some (some u)) : Busy is h k r := by
  obtain ⟨hu, hend⟩ := of_release_eq_some hu
  obtain ⟨r', hm', hr⟩ := H.holds hu
  cases hm.symm.trans hm'
  exact ⟨u, H.given (by rw [hr]; simp), hr, hend⟩

include hplain hi hyes

theorem Allots.settle_reg (hop : ∀ t, i.op ≠ .alloc t)
    (htake : take i.res.toNat pool (h.release k p) = some (r, p')) :
    Allots is (k + 1) (h.put i.res.toNat (.reg r)) p' := by
  have hdistinct : pool.Nodup := by decide
  obtain ⟨m, hm, hfree, rfl⟩ := take_eq_some htake
  have hlen := (List.getElem?_eq_some_iff.mp hfree).1
  -- the register stands once in the pool, and there it is free
  have hunneeded {u : Nat} (hu : h.homeOf u = .reg r) : h.lives.endOf u ≤ k := by
    obtain ⟨m', hm', hheld | hend⟩ := H.held_release hu
    · have hmm : m = m' :=
        (List.getElem?_inj (List.getElem?_eq_some_iff.mp hm).1 hdistinct).mp (hm.trans hm'.symm)
      rw [← hmm, hfree] at hheld
      cases hheld
    · omega
  refine H.extend hplain hi hyes le_rfl ((Home.suits_of_not_alloc hop).mpr (Or.inl ⟨r, rfl⟩))
    (fun _ => iff_of_false (by simp) fun hall => ?_) (by rw [List.length_set, H.length_release])
    (fun {u r'} hu => ?_) (fun {m' u} hu => ?_) (fun {r'} hr' => ?_) (by simp [Home.range?])
  · obtain ⟨u, -, hu, hend⟩ := hall r (List.mem_of_getElem? hm)
    exact absurd (hunneeded hu) (not_le.mpr hend)
  · obtain ⟨m', hm', hheld | hend⟩ := H.held_release hu
    · refine ⟨m', hm', Or.inl ?_⟩
      rw [List.getElem?_set_ne, hheld]
      rintro rfl
      simp [hfree] at hheld
    · exact ⟨m', hm', Or.inr hend⟩
  · by_cases hmm : m = m'
    · subst hmm
      rw [List.getElem?_set_self hlen] at hu
      cases hu
      exact Or.inr ⟨rfl, r, hm, rfl⟩
    · rw [List.getElem?_set_ne hmm] at hu
      exact Or.inl (of_release_eq_some hu).1
  · obtain rfl := Home.reg.inj hr'
    exact ⟨⟨m, hm, by simp [hlen]⟩, hunneeded⟩

theorem Allots.settle_range (hsize : size ∣ 8)
    (hrange : home.range? = some ((h.reserve size).1, size)) (hkind : home.Suits i)
    (hspilled : (∀ t, i.op ≠ .alloc t) →
      ((∃ disp, home = .spill disp i.ty.bytes) ↔ ∀ r ∈ pool, Busy is h k r)) :
    Allots is (k + 1) { (h.reserve size).2.put i.res.toNat home with spilled }
      (h.release k p) := by
  obtain ⟨off, hoff, -, hreserve⟩ := reserve_spec hsize h
  rw [hreserve] at hrange ⊢
  show Allots is (k + 1) { h with
    homes := h.homes.setIfInBounds i.res.toNat home, frame := off + size, spilled } _
  refine H.extend hplain hi hyes (by omega) hkind hspilled H.length_release H.held_release
    (fun hu => Or.inl (of_release_eq_some hu).1) (fun he => ?_) (fun he => ?_)
  · rw [he] at hrange
    cases hrange
  · rw [hrange] at he
    cases he
    omega

theorem Allots.settle :
    Allots is (k + 1) (h.settle (h.release k p) i).1 (h.settle (h.release k p) i).2 := by
  by_cases hslot : ∃ t, i.op = .alloc t
  · obtain ⟨t, hop⟩ := hslot
    rw [settle_of_slot hop]
    exact H.settle_range hplain hi hyes (hplain.slotted hi hop) rfl
      ((Home.suits_of_alloc hop).mpr ⟨_, rfl⟩) fun hno => absurd hop (hno t)
  · have hop : ∀ t, i.op ≠ .alloc t := fun t ht => hslot ⟨t, ht⟩
    rw [settle_of_noSlot hop]
    cases htake : take i.res.toNat pool (h.release k p) with
    | some rp => exact H.settle_reg hplain hi hyes hop htake
    | none =>
      refine H.settle_range hplain hi hyes (hplain.sized hi hyes) rfl
        ((Home.suits_of_not_alloc hop).mpr (Or.inr ⟨_, rfl⟩))
        fun _ => iff_of_true ⟨_, rfl⟩ fun r hr => ?_
      obtain ⟨m, hm, hr⟩ := getElem_of_mem hr
      obtain ⟨u, hu⟩ := take_eq_none htake H.length_release hm
      exact H.busy_of_release (List.getElem?_eq_some_iff.mpr ⟨hm, hr⟩) hu

end Settle

theorem lives_settle (h : Homes) (p : Holders) (i : Dynarec.Instr) :
    (h.settle p i).1.lives = h.lives ∧ (h.settle p i).1.homes.size = h.homes.size := by
  by_cases hslot : ∃ t, i.op = .alloc t
  · obtain ⟨t, hop⟩ := hslot
    rw [settle_of_slot hop]
    exact ⟨rfl, Array.size_setIfInBounds⟩
  · rw [settle_of_noSlot fun t ht => hslot ⟨t, ht⟩]
    split <;> exact ⟨rfl, Array.size_setIfInBounds⟩

theorem lives_assign (h : Homes) (p : Holders) (k : Nat) (rest : List Dynarec.Instr) :
    (h.assign p k rest).lives = h.lives ∧ (h.assign p k rest).homes.size = h.homes.size := by
  induction rest generalizing h p k with
  | nil => exact ⟨rfl, rfl⟩
  | cons i rest ih =>
    simp only [Homes.assign]
    split_ifs
    · obtain ⟨hlives, hsize⟩ := lives_settle h (h.release k p) i
      obtain ⟨hlives', hsize'⟩ := ih (h.settle (h.release k p) i).1 _ (k + 1)
      exact ⟨hlives'.trans hlives, hsize'.trans hsize⟩
    · exact ih h _ (k + 1)

/-- What every new home preserves holds in the end. -/
theorem Allots.assign (hstep : ∀ {k h p i}, Allots is k h p →
      Plain is h.homes.size → is[k]? = some i → i.hasResult = true → P h →
        P (h.settle (h.release k p) i).1) (H : Allots is k h p) (hplain : Plain is h.homes.size)
    (hrest : is.drop k = rest) (hk : k ≤ is.length) (hP : P h) :
    ∃ p', Allots is is.length (h.assign p k rest) p' ∧ P (h.assign p k rest) := by
  induction rest generalizing h p k with
  | nil =>
    have hlen : k = is.length := le_antisymm hk (drop_eq_nil_iff.mp hrest)
    exact ⟨p, hlen ▸ H, hP⟩
  | cons i rest ih =>
    have hlt : k < is.length := by
      by_contra hge
      rw [drop_eq_nil_iff.mpr (by omega)] at hrest
      cases hrest
    rw [drop_eq_getElem_cons hlt, cons.injEq] at hrest
    have hi : is[k]? = some i := by rw [getElem?_eq_getElem hlt, hrest.1]
    simp only [Homes.assign]
    split_ifs with hyes
    · have hsize := (lives_settle h (h.release k p) i).2
      exact ih (H.settle hplain hi hyes) (hsize ▸ hplain) hrest.2 hlt (hstep H hplain hi hyes hP)
    · exact ih (H.release hi (by simpa using hyes)) hplain hrest.2 hlt hP

end Step

theorem get_natCast (h : Homes) (v : Nat) : h.get v = h.homeOf v := by
  rw [get, entryAt?_natCast, homeOf]

theorem get_eq (hget : h.get id = home) (hne : home ≠ .none) :
    id = (id.toNat : Int) ∧ h.homeOf id.toNat = home := by
  rw [get] at hget
  cases hentry : entryAt? h.homes id with
  | none => exact absurd (by simpa [hentry] using hget.symm) hne
  | some x =>
    obtain ⟨hnat, hx⟩ := entryAt?_eq_some hentry
    refine ⟨hnat, ?_⟩
    rw [homeOf, hx]
    simpa [hentry] using hget

/-- What the homes of a graph are good for: operands are alive where they are used, results and
nothing else have homes, and a home is shared only when one variable is not needed any more. -/
structure Sound (g : Graph) (h : Homes) : Prop where
  alive : ∀ {p i t id}, g.instrAt? p = some i → .var t id ∈ i.op.operands →
    index g p ≤ h.lives.endOf id.toNat
  given : ∀ {id}, h.get id ≠ .none → ∃ p t, g.DefinesAt p id t
  settled : ∀ {p i}, g.instrAt? p = some i → i.hasResult = true → (h.get i.res).Suits i
  spilled : ∀ {p i}, g.instrAt? p = some i → i.hasResult = true → (∀ t, i.op ≠ .alloc t) →
    ((∃ disp, h.get i.res = .spill disp i.ty.bytes) ↔
      ∀ r ∈ pool, Busy g.instrs h (index g p) r)
  pool : ∀ {id r}, h.get id = .reg r → r ∈ pool
  apart : ∀ {p q v v' t t' r}, p.Before q → g.DefinesAt p v t → g.DefinesAt q v' t' →
    h.get v = .reg r → h.get v' = .reg r → h.lives.endOf v.toNat ≤ index g q
  inside : ∀ {id disp size}, (h.get id).range? = some (disp, size) →
    -((savedSize + h.frame : Nat) : Int) ≤ disp ∧ disp + size ≤ -(savedSize : Int)
  disjoint : ∀ {v v' disp disp' size size'}, v ≠ v' → (h.get v).range? = some (disp, size) →
    (h.get v').range? = some (disp', size') → disp + size ≤ disp' ∨ disp' + size' ≤ disp

section Graph

variable (T : g.Typed)
include T

theorem bytes_alloc_dvd {p : Place} (hi : g.instrAt? p = some i) (hop : i.op = .alloc t) :
    t.bytes ∣ 8 := by
  have hshape := T.checkShape_ok hi
  simp only [Typing.checkShape, hop] at hshape
  split_ifs at hshape with hbad
  simp only [Bool.or_eq_true, decide_eq_true_eq, Bool.not_eq_true', not_or,
    Bool.not_eq_false] at hbad
  exact Ty.IsScalar.bytes_dvd ⟨hbad.2, hbad.1.2⟩

theorem definesAt_of_defines {v : Nat} (hk : Defines g.instrs k v) :
    ∃ p t, g.DefinesAt p v t ∧ index g p = k := by
  obtain ⟨i, hi, hyes, rfl⟩ := hk
  obtain ⟨p, hp, rfl⟩ := exists_place hi
  have hat : g.DefinesAt p i.res i.ty := ⟨i, hp, hyes, rfl, rfl⟩
  exact ⟨p, i.ty, (T.defines_fresh hat).2.1 ▸ hat, rfl⟩

/-- A checked graph can be given homes. -/
theorem plain_instrs : Plain g.instrs g.varCount.toNat := by
  refine ⟨fun hj hk => ?_, fun hk => ?_, fun hi hyes => ?_, fun hi hop => ?_⟩
  · obtain ⟨p, t, hp, rfl⟩ := definesAt_of_defines T hj
    obtain ⟨q, u, hq, rfl⟩ := definesAt_of_defines T hk
    rw [T.defines_unique hp hq]
  · obtain ⟨p, t, hp, -⟩ := definesAt_of_defines T hk
    simpa using (T.defines_fresh hp).2.2.1
  · obtain ⟨p, hp, -⟩ := exists_place hi
    exact (T.defines_fresh ⟨_, hp, hyes, rfl, rfl⟩).1.bytes_dvd
  · obtain ⟨p, hp, -⟩ := exists_place hi
    exact bytes_alloc_dvd T hp hop

omit T in
theorem defines_index {p : Place} {v : Int} (hp : g.DefinesAt p v t) :
    Defines g.instrs (index g p) v.toNat := by
  obtain ⟨i, hi, hyes, rfl, -⟩ := hp
  exact ⟨i, instrs_index hi, hyes, rfl⟩

omit T in
theorem index_lt_length {p : Place} (hi : g.instrAt? p = some i) : index g p < g.instrs.length :=
  (List.getElem?_eq_some_iff.mp (instrs_index hi)).1

omit T in
theorem ofGraph_lives (hh : ofGraph g = .ok h) :
    Lives.ofGraph g = .ok h.lives ∧ h.homes.size = g.varCount.toNat := by
  obtain ⟨lives, hlives, ⟨⟩⟩ := Except.bind_eq_ok.mp hh
  obtain ⟨hl, hsize⟩ := lives_assign { lives, homes := Array.replicate g.varCount.toNat .none }
    (Native.pool.map fun _ => none) 0 g.instrs
  exact ⟨by rw [hl, hlives], by rw [hsize]; exact Array.size_replicate⟩

theorem ofGraph_allots
    (hstart : ∀ lives, P { lives, homes := Array.replicate g.varCount.toNat .none })
    (hstep : ∀ {k h p i}, Allots g.instrs k h p → Plain g.instrs h.homes.size →
      g.instrs[k]? = some i → i.hasResult = true → P h → P (h.settle (h.release k p) i).1)
    (hh : ofGraph g = .ok h) : ∃ p', Allots g.instrs g.instrs.length h p' ∧ P h := by
  obtain ⟨lives, -, hh⟩ := Except.bind_eq_ok.mp hh
  let start : Homes := { lives, homes := Array.replicate g.varCount.toNat .none }
  have hnone (v : Nat) : start.homeOf v = .none := by
    show ((Array.replicate g.varCount.toNat Home.none)[v]?).getD .none = .none
    rw [Array.getElem?_replicate]
    split_ifs <;> rfl
  have hfree {m v : Nat} : (Native.pool.map fun _ => none)[m]? ≠ some (some v) := by
    rw [getElem?_map]
    cases Native.pool[m]? <;> simp
  have hallots : Allots g.instrs 0 start (Native.pool.map fun _ => none) := by
    refine ⟨fun hne => absurd (hnone _) hne, fun hj => absurd hj (Nat.not_lt_zero _),
      fun hj => absurd hj (Nat.not_lt_zero _), length_map _, fun hv => ?_,
      fun hv => absurd hv hfree, fun _ hj => absurd hj (Nat.not_lt_zero _), fun hv => ?_,
      fun _ hv => ?_⟩ <;>
    · rw [hnone] at hv
      cases hv
  have hsize : start.homes.size = g.varCount.toNat := Array.size_replicate
  have hassign : start.assign (Native.pool.map fun _ => none) 0 g.instrs = h := Except.ok.inj hh
  rw [← hassign]
  exact hallots.assign hstep (hsize.symm ▸ plain_instrs T) drop_zero (Nat.zero_le _)
    (hstart lives)

theorem ofGraph_sound (hh : ofGraph g = .ok h) : Sound g h := by
  obtain ⟨p', H, -⟩ := ofGraph_allots (P := fun _ => True) T (fun _ => trivial)
    (fun _ _ _ _ _ => trivial) hh
  obtain ⟨-, -, huses⟩ := Lives.instrs_ok (ofGraph_lives hh).1 fun v => by
    show ((Array.replicate g.varCount.toNat 0)[v]?).getD 0 ≤ 0
    rw [Array.getElem?_replicate]
    split_ifs <;> exact le_rfl
  have hnat {p : Place} {i : Dynarec.Instr} (hi : g.instrAt? p = some i)
      (hyes : i.hasResult = true) : h.get i.res = h.homeOf i.res.toNat := by
    rw [(T.defines_fresh ⟨i, hi, hyes, rfl, rfl⟩).2.1, get_natCast]
    rfl
  have hrange {id : Int} {disp : Int} {size : Nat} (hid : (h.get id).range? = some (disp, size)) :
      id = (id.toNat : Int) ∧ (h.homeOf id.toNat).range? = some (disp, size) := by
    have hne : h.get id ≠ .none := by
      intro hnone
      rw [hnone] at hid
      cases hid
    obtain ⟨hnat, heq⟩ := get_eq rfl hne
    exact ⟨hnat, heq ▸ hid⟩
  refine ⟨fun {p i t id} hi hid => ?_, fun {id} hne => ?_, fun {p i} hi hyes => ?_,
    fun {p i} hi hyes hop => ?_, fun {id r} hr => ?_, ?_, fun {id disp size} hid => ?_, ?_⟩
  · have := (huses _ i (instrs_index hi)).1 t id hid
    omega
  · obtain ⟨hnat, heq⟩ := get_eq rfl hne
    obtain ⟨j, -, hj⟩ := H.given (heq ▸ hne)
    obtain ⟨p, t, hp, -⟩ := definesAt_of_defines T hj
    exact ⟨p, t, hnat ▸ hp⟩
  · rw [hnat hi hyes]
    exact H.settled (index_lt_length hi) (instrs_index hi) hyes
  · rw [hnat hi hyes]
    exact H.spilled (index_lt_length hi) (instrs_index hi) hyes hop
  · obtain ⟨-, hr⟩ := get_eq hr (by simp)
    obtain ⟨m, hm, -⟩ := H.held hr
    exact mem_of_getElem? hm
  · intro p q v v' t t' r hpq hp hq hv hv'
    obtain ⟨-, hv⟩ := get_eq hv (by simp)
    obtain ⟨-, hv'⟩ := get_eq hv' (by simp)
    obtain ⟨i, hi, -⟩ := id hp
    obtain ⟨i', hi', -⟩ := id hq
    exact H.apart (index_lt hi hpq) (index_lt_length hi') (defines_index hp) (defines_index hq) hv
      hv'
  · exact H.inside (hrange hid).2
  · intro v v' disp disp' size size' hne hv hv'
    obtain ⟨hnat, hv⟩ := hrange hv
    obtain ⟨hnat', hv'⟩ := hrange hv'
    exact H.disjoint (by omega) hv hv'

end Graph

end Homes

end Dynarec.Native
