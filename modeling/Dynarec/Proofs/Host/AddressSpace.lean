import Dynarec.Host.AddressSpace
import Mathlib.Tactic

/-!
# Planned address spaces

The pages of a plan are whole, ascend and leave gaps, and they are the pages that the ranges touch. A
list of ranges with gaps is known by the addresses in it, so the order of the ranges does not matter.
A stack has the first place that is free, and there is none just if every place is taken.
-/
namespace Dynarec.AddressRange

open List

def Has (r : AddressRange) (a : Nat) : Prop :=
  r.start.toNat ≤ a ∧ a < r.stop.toNat

/-- Address `a` is in one of the ranges. -/
def Covers (rs : List AddressRange) (a : Nat) : Prop :=
  ∃ r ∈ rs, r.Has a

/-- The range has a page, and whole pages only. -/
structure Whole (r : AddressRange) : Prop where
  start : pageSize.toNat ∣ r.start.toNat
  stop : pageSize.toNat ∣ r.stop.toNat
  pos : r.start.toNat < r.stop.toNat

/-- Ranges that ascend, with addresses between them that are in none. -/
structure Apart (rs : List AddressRange) : Prop where
  pos : ∀ r ∈ rs, r.start.toNat < r.stop.toNat
  gaps : rs.Pairwise fun a b => a.stop.toNat < b.start.toNat

variable {r r' : AddressRange} {rs rs' : List AddressRange}

theorem covers_cons {a : Nat} : Covers (r :: rs) a ↔ r.Has a ∨ Covers rs a := by
  simp [Covers]

theorem not_covers_nil (a : Nat) : ¬ Covers [] a := by
  simp [Covers]

namespace Apart

theorem tail (h : Apart (r :: rs)) : Apart rs :=
  ⟨fun r' hr' => h.pos r' (mem_cons_of_mem _ hr'), h.gaps.of_cons⟩

theorem stop_lt (h : Apart (r :: rs)) {a : Nat} (ha : Covers rs a) : r.stop.toNat < a := by
  obtain ⟨r', hr', hlow, -⟩ := ha
  exact (rel_of_pairwise_cons h.gaps hr').trans_le hlow

theorem not_covers_stop (h : Apart (r :: rs)) : ¬ Covers (r :: rs) r.stop.toNat := by
  rw [covers_cons]
  rintro (hself | hrest)
  · exact lt_irrefl _ hself.2
  · exact lt_irrefl _ (h.stop_lt hrest)

theorem covers_start (h : Apart (r :: rs)) : Covers (r :: rs) r.start.toNat :=
  covers_cons.mpr (Or.inl ⟨le_rfl, h.pos r mem_cons_self⟩)

/-- The first range starts at the least address and has all addresses up to a gap. -/
theorem head_le (h : Apart (r :: rs)) (h' : Apart (r' :: rs'))
    (hall : ∀ a, Covers (r :: rs) a → Covers (r' :: rs') a) : r'.start.toNat ≤ r.start.toNat ∧
      (r'.start.toNat = r.start.toNat → r.stop.toNat ≤ r'.stop.toNat) := by
  have hpos' := h'.pos r' mem_cons_self
  constructor
  · rcases covers_cons.mp (hall _ h.covers_start) with hhas | hrest
    · exact hhas.1
    · have := h'.stop_lt hrest
      omega
  · intro hstart
    by_contra hlt
    exact h'.not_covers_stop (hall _ (covers_cons.mpr (Or.inl ⟨by omega, by omega⟩)))

theorem covers_tail_iff (h : Apart (r :: rs)) {a : Nat} :
    Covers rs a ↔ Covers (r :: rs) a ∧ r.stop.toNat < a := by
  rw [covers_cons]
  refine ⟨fun ha => ⟨Or.inr ha, h.stop_lt ha⟩, ?_⟩
  rintro ⟨hhas | ha, hlt⟩
  · exact absurd hhas.2 (by omega)
  · exact ha

/-- Ranges with gaps are known by their addresses. -/
theorem unique (h : Apart rs) (h' : Apart rs') (hall : ∀ a, Covers rs a ↔ Covers rs' a) :
    rs = rs' := by
  induction rs generalizing rs' with
  | nil =>
    cases rs' with
    | nil => rfl
    | cons r' rs' => exact absurd ((hall _).mpr h'.covers_start) (not_covers_nil _)
  | cons r rs ih =>
    cases rs' with
    | nil => exact absurd ((hall _).mp h.covers_start) (not_covers_nil _)
    | cons r' rs' =>
      obtain ⟨hstart, hstop⟩ := h.head_le h' fun a => (hall a).mp
      obtain ⟨hstart', hstop'⟩ := h'.head_le h fun a => (hall a).mpr
      obtain rfl : r = r' := by
        obtain ⟨start, stop⟩ := r
        obtain ⟨start', stop'⟩ := r'
        simp only [mk.injEq, ← UInt64.toNat_inj] at *
        omega
      rw [ih h.tail h'.tail fun a => by rw [h.covers_tail_iff, h'.covers_tail_iff, hall]]

end Apart

/-- What becomes of ascending ranges that are joined. -/
structure Joined (last : AddressRange) (rs out : List AddressRange) : Prop where
  apart : Apart out
  covers : ∀ a, Covers out a ↔ Covers (last :: rs) a
  low : ∀ r ∈ out, last.start.toNat ≤ r.start.toNat
  whole : (∀ r ∈ last :: rs, Whole r) → ∀ r ∈ out, Whole r

theorem joined {last : AddressRange} (hpos : ∀ r ∈ last :: rs, r.start.toNat < r.stop.toNat)
    (hsorted : (last :: rs).Pairwise fun a b => a.start.toNat ≤ b.start.toNat) :
    Joined last rs (join last rs) := by
  fun_induction join last rs with
  | case1 last =>
    exact ⟨⟨hpos, pairwise_singleton _ _⟩, fun _ => Iff.rfl, by simp, fun hwhole => hwhole⟩
  | case2 last r rs hle ih =>
    simp only [forall_mem_cons, pairwise_cons] at hpos hsorted ih ⊢
    obtain ⟨hlast, hr, hrest⟩ := hpos
    obtain ⟨⟨hfirst, hfirsts⟩, hnext, hsorted⟩ := hsorted
    rw [UInt64.le_iff_toNat_le] at hle
    have hstop := UInt64.toNat_max last.stop r.stop
    obtain ⟨hapart, hcovers, hlow, hwhole⟩ := ih ⟨by omega, hrest⟩ ⟨hfirsts, hsorted⟩
    refine ⟨hapart, fun a => ?_, hlow, fun hall => hwhole ?_⟩
    · rw [hcovers, covers_cons, covers_cons, covers_cons, ← or_assoc]
      refine or_congr_left ?_
      simp only [Has]
      omega
    · simp only [forall_mem_cons] at hall ⊢
      refine ⟨⟨hall.1.start, ?_, by simp only; omega⟩, hall.2.2⟩
      rw [hstop]
      rcases max_choice last.stop.toNat r.stop.toNat with heq | heq <;> rw [heq]
      · exact hall.1.stop
      · exact hall.2.1.stop
  | case3 last r rs hgt ih =>
    simp only [forall_mem_cons, pairwise_cons] at hpos hsorted ih ⊢
    obtain ⟨hlast, hpos⟩ := hpos
    obtain ⟨⟨hfirst, -⟩, hsorted⟩ := hsorted
    rw [UInt64.le_iff_toNat_le] at hgt
    obtain ⟨hapart, hcovers, hlow, hwhole⟩ := ih hpos hsorted
    refine ⟨⟨?_, ?_⟩, fun a => ?_, ?_, ?_⟩
    · exact forall_mem_cons.mpr ⟨hlast, hapart.pos⟩
    · refine pairwise_cons.mpr ⟨fun r' hr' => ?_, hapart.gaps⟩
      have := hlow r' hr'
      omega
    · rw [covers_cons, hcovers, ← covers_cons]
    · refine forall_mem_cons.mpr ⟨le_rfl, fun r' hr' => hfirst.trans (hlow r' hr')⟩
    · intro hall
      obtain ⟨hself, hall⟩ := forall_mem_cons.mp hall
      exact forall_mem_cons.mpr ⟨hself, hwhole hall⟩

theorem toNat_pageDown (a : UInt64) :
    (pageDown a).toNat = a.toNat / pageSize.toNat * pageSize.toNat := by
  have hmask : (~~~(pageSize - 1)).toNat = (2 ^ 52 - 1) <<< 12 := by decide
  have hsize : pageSize.toNat = 2 ^ 12 := rfl
  rw [pageDown, UInt64.toNat_and, hmask, hsize, ← Nat.shiftRight_eq_div_pow, ← Nat.shiftLeft_eq]
  refine Nat.eq_of_testBit_eq fun i => ?_
  rw [Nat.testBit_and, Nat.testBit_shiftLeft, Nat.testBit_two_pow_sub_one, Nat.testBit_shiftLeft,
    Nat.testBit_shiftRight]
  by_cases hlow : 12 ≤ i
  · by_cases hhigh : i < 64
    · simp [hlow, show i - 12 < 52 by omega]
    · have hzero := Nat.testBit_lt_two_pow
        (a.toNat_lt.trans_le (Nat.pow_le_pow_right two_pos (not_lt.mp hhigh)))
      simp [hlow, hzero]
  · simp [hlow]

theorem toNat_pageUp {a : UInt64} (ha : a.toNat ≤ 2 ^ 64 - pageSize.toNat) :
    (pageUp a).toNat = (a.toNat + pageSize.toNat - 1) / pageSize.toNat * pageSize.toNat := by
  have hsize : pageSize.toNat = 4096 := rfl
  have hsum : (a + pageSize - 1).toNat = a.toNat + pageSize.toNat - 1 := by
    rw [UInt64.toNat_sub, UInt64.toNat_add, hsize]
    simp only [UInt64.toNat_one]
    omega
  rw [← hsum]
  exact toNat_pageDown _

/-- Address `a` is on a page that has an address of the range. -/
def Touches (r : AddressRange) (a : Nat) : Prop :=
  ∃ b, r.Has b ∧ b / pageSize.toNat = a / pageSize.toNat

section Paged

variable (hpos : r.start.toNat < r.stop.toNat) (hend : r.stop.toNat ≤ 2 ^ 64 - pageSize.toNat)
include hpos hend

theorem whole_paged : Whole r.paged := by
  have hsize : pageSize.toNat = 4096 := rfl
  refine ⟨?_, ?_, ?_⟩
  · exact ⟨_, (toNat_pageDown _).trans (Nat.mul_comm _ _)⟩
  · exact ⟨_, (toNat_pageUp hend).trans (Nat.mul_comm _ _)⟩
  · rw [paged, toNat_pageDown, toNat_pageUp hend, hsize]
    omega

theorem has_paged_iff {a : Nat} : r.paged.Has a ↔ r.Touches a := by
  have hsize : pageSize.toNat = 4096 := rfl
  simp only [Has, Touches, paged, toNat_pageDown, toNat_pageUp hend, hsize]
  constructor
  · rintro ⟨hlow, hhigh⟩
    exact ⟨max r.start.toNat (a / 4096 * 4096), by omega, by omega⟩
  · rintro ⟨b, ⟨hlow, hhigh⟩, hpage⟩
    omega

end Paged

/-- The pages of a plan are whole, with gaps, and exactly those that the ranges touch. -/
theorem pages_spec {ranges : List AddressRange}
    (hends : ∀ r ∈ ranges, r.stop.toNat ≤ 2 ^ 64 - pageSize.toNat) :
    Apart (pages ranges) ∧ (∀ r ∈ pages ranges, Whole r) ∧
      ∀ a, Covers (pages ranges) a ↔ ∃ r ∈ ranges, r.Touches a := by
  let kept := (ranges.filter fun r => !r.isEmpty).map paged
  let sorted := kept.mergeSort fun a b => a.start ≤ b.start
  have hmem {r : AddressRange} : r ∈ sorted ↔
      ∃ r₀ ∈ ranges, r₀.start.toNat < r₀.stop.toNat ∧ r₀.paged = r := by
    simp [sorted, kept, isEmpty, UInt64.lt_iff_toNat_lt, and_assoc]
  have hwhole : ∀ r ∈ sorted, Whole r := by
    intro r hr
    obtain ⟨r₀, hr₀, hpos, rfl⟩ := hmem.mp hr
    exact whole_paged hpos (hends r₀ hr₀)
  have hcovers (a : Nat) : Covers sorted a ↔ ∃ r ∈ ranges, r.Touches a := by
    constructor
    · rintro ⟨r, hr, ha⟩
      obtain ⟨r₀, hr₀, hpos, rfl⟩ := hmem.mp hr
      exact ⟨r₀, hr₀, (has_paged_iff hpos (hends r₀ hr₀)).mp ha⟩
    · rintro ⟨r, hr, b, hb, ha⟩
      have hpos := hb.1.trans_lt hb.2
      exact ⟨_, hmem.mpr ⟨r, hr, hpos, rfl⟩, (has_paged_iff hpos (hends r hr)).mpr ⟨b, hb, ha⟩⟩
  have hsorted : sorted.Pairwise fun a b => a.start.toNat ≤ b.start.toNat := by
    refine (pairwise_mergeSort ?_ ?_ kept).imp fun h => ?_
    all_goals simp only [decide_eq_true_eq, Bool.or_eq_true, UInt64.le_iff_toNat_le] at *
    · intro a b c
      omega
    · intro a b
      omega
    · exact h
  simp only [pages]
  split
  · have hnone : sorted = [] := ‹_›
    exact ⟨⟨by simp, .nil⟩, by simp, hnone ▸ hcovers⟩
  · rename_i last rest _
    have hsome : sorted = last :: rest := ‹_›
    rw [hsome] at hwhole hcovers hsorted
    obtain ⟨hapart, hsame, -, hall⟩ := joined (fun r hr => (hwhole r hr).pos) hsorted
    exact ⟨hapart, hall hwhole, fun a => (hsame a).trans (hcovers a)⟩

/-- Between whole ranges with gaps there is a page that is in none. -/
theorem Apart.pages (h : Apart rs) (hwhole : ∀ r ∈ rs, Whole r) :
    rs.Pairwise fun a b => a.stop.toNat + pageSize.toNat ≤ b.start.toNat := by
  refine h.gaps.imp_of_mem fun {a b} ha hb hlt => ?_
  have hstop := (hwhole a ha).stop
  have hstart := (hwhole b hb).start
  rw [show pageSize.toNat = 4096 from rfl] at hstop hstart ⊢
  omega

/-- The places that a stack can have: powers of two. -/
def IsStackBase (base : UInt64) : Prop :=
  ∃ k, 20 ≤ k ∧ k < 46 ∧ base.toNat = 2 ^ k

theorem mem_stackBases {base : UInt64} : base ∈ stackBases ↔ IsStackBase base := by
  have hpow {k : Nat} (hk : k < 46) : (1 <<< k : Nat).toUInt64.toNat = 2 ^ k := by
    have hlt := Nat.pow_lt_pow_right one_lt_two (hk.trans (show 46 < 64 by decide))
    rw [Nat.one_shiftLeft, Nat.toUInt64_eq, UInt64.toNat_ofNat_of_lt' hlt]
  simp only [stackBases, mem_map, mem_range]
  constructor
  · rintro ⟨k, hk, rfl⟩
    exact ⟨20 + k, by omega, by omega, hpow (by omega)⟩
  · rintro ⟨k, hlow, hhigh, hbase⟩
    refine ⟨k - 20, by omega, UInt64.toNat_inj.mp ?_⟩
    rw [hpow (by omega), hbase, show 20 + (k - 20) = k by omega]

/-- A stack at `base` with the page behind it has an address of the range. -/
def Obstructs (base : UInt64) (r : AddressRange) : Prop :=
  ∃ a, base.toNat ≤ a ∧ a < base.toNat + stackSize.toNat + pageSize.toNat ∧ r.Has a

theorem meetsStack_iff {base : UInt64} (hbase : IsStackBase base)
    (hpos : r.start.toNat < r.stop.toNat) : meetsStack base r = true ↔ Obstructs base r := by
  obtain ⟨k, -, hk, hbase⟩ := hbase
  have hlt : base.toNat < 2 ^ 46 := hbase ▸ Nat.pow_lt_pow_right one_lt_two hk
  have hsize : pageSize.toNat = 4096 := rfl
  have hstack : stackSize.toNat = 262144 := rfl
  simp only [meetsStack, Bool.and_eq_true, decide_eq_true_eq, UInt64.lt_iff_toNat_lt, UInt64.toNat_add,
    Obstructs, Has, hsize, hstack]
  constructor
  · rintro ⟨hlow, hhigh⟩
    exact ⟨max base.toNat r.start.toNat, by omega⟩
  · rintro ⟨a, ha⟩
    omega

/-- Plans are right. The pages are whole and ascend, with an unused page between neighbours; they are
those that the ranges touch, whatever the order of the ranges. A stack is at a place where nothing is,
and if there is none, something is at every place. -/
theorem planned :
    (∀ ranges : List AddressRange, (∀ r ∈ ranges, r.stop.toNat ≤ 2 ^ 64 - pageSize.toNat) →
      (∀ r ∈ pages ranges, Whole r) ∧
      (pages ranges).Pairwise (fun a b => a.stop.toNat + pageSize.toNat ≤ b.start.toNat) ∧
      (∀ a, Covers (pages ranges) a ↔ ∃ r ∈ ranges, r.Touches a) ∧
      ∀ ranges', ranges.Perm ranges' → pages ranges' = pages ranges) ∧
    ∀ mapped : List AddressRange, (∀ r ∈ mapped, r.start.toNat < r.stop.toNat) →
      (∀ base, stackBase? mapped = some base →
        IsStackBase base ∧ ∀ r ∈ mapped, ¬ Obstructs base r) ∧
      (stackBase? mapped = none → ∀ base, IsStackBase base → ∃ r ∈ mapped, Obstructs base r) := by
  refine ⟨fun ranges hends => ?_, fun mapped hpos => ⟨fun base hbase => ?_, fun hnone base hbase => ?_⟩⟩
  · obtain ⟨hapart, hwhole, hcovers⟩ := pages_spec hends
    refine ⟨hwhole, hapart.pages hwhole, hcovers, fun ranges' hperm => ?_⟩
    obtain ⟨hapart', -, hcovers'⟩ := pages_spec fun r hr => hends r (hperm.mem_iff.mpr hr)
    exact hapart'.unique hapart fun a => by simp only [hcovers, hcovers', hperm.mem_iff]
  · have hplace := mem_stackBases.mp (List.mem_of_find?_eq_some hbase)
    refine ⟨hplace, fun r hr hmeets => ?_⟩
    have hfree := List.find?_some (p := fun base => mapped.all fun r => !meetsStack base r) hbase
    have hr := List.all_eq_true.mp hfree r hr
    simp [(meetsStack_iff hplace (hpos r ‹_›)).mpr hmeets] at hr
  · have htaken := List.find?_eq_none.mp hnone base (mem_stackBases.mpr hbase)
    simp only [List.all_eq_true, not_forall, Bool.not_eq_true', Bool.not_eq_false] at htaken
    obtain ⟨r, hr, hmeets⟩ := htaken
    exact ⟨r, hr, (meetsStack_iff hbase (hpos r hr)).mp hmeets⟩

/-- Ranges that are nested, touch, and end on a page, and a stack behind two that are in its way. -/
def scattered : List AddressRange :=
  [⟨0x205010, 0x206000⟩, ⟨0x100ff0, 0x102010⟩, ⟨0x101000, 0x101001⟩, ⟨0x206000, 0x206008⟩]

theorem planned_scattered :
    (∀ r ∈ scattered, r.stop.toNat ≤ 2 ^ 64 - pageSize.toNat) ∧
    (∀ r ∈ scattered, r.start.toNat < r.stop.toNat) ∧ stackBase? scattered = some 0x400000 ∧
    pages scattered.reverse = pages scattered ∧ Covers (pages scattered) 0x102fff ∧
    ∀ r ∈ scattered, ¬ Obstructs 0x400000 r := by
  have hends : ∀ r ∈ scattered, r.stop.toNat ≤ 2 ^ 64 - pageSize.toNat := by decide
  have hpos : ∀ r ∈ scattered, r.start.toNat < r.stop.toNat := by decide
  have hbase : stackBase? scattered = some 0x400000 := by decide
  obtain ⟨-, -, hcovers, horder⟩ := planned.1 scattered hends
  refine ⟨hends, hpos, hbase, horder _ scattered.reverse_perm.symm, (hcovers _).mpr ?_,
    ((planned.2 _ hpos).1 _ hbase).2⟩
  exact ⟨⟨0x100ff0, 0x102010⟩, by decide, 0x102000, ⟨by decide, by decide⟩, by decide⟩

end Dynarec.AddressRange
