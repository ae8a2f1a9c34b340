import Dynarec.Cache.Table
import Mathlib.Data.Set.Card
import Mathlib.Tactic

/-!
# Tables of entry points as maps

A search tries the slots in a fixed order and ends at the first one that is empty or has the address.
A table is sound if a search for the address of any slot ends at that slot. Then no address is there
twice and the way to it has no gap, a table is the map that its slots list, and insertion fails only in
a table that is full of other addresses.
-/
namespace Dynarec.EntryTable

variable {i n q : Nat} {s s' : Slot} {t' : EntryTable}

variable {t : EntryTable} {addr entry : UInt64}

def Uses (t : EntryTable) (i : Nat) (s : Slot) : Prop :=
  t[i]? = some (some s)

theorem Uses.eq (h : t.Uses i s) (h' : t.Uses i s') : s = s' :=
  Option.some.inj (Option.some.inj (h.symm.trans h'))

theorem settles_eq_false : t.settles addr i = false ↔ ∃ s, t.Uses i s ∧ s.addr ≠ addr := by
  unfold settles Uses
  cases h : t[i]? with
  | none => simp
  | some o =>
    cases o with
    | none => simp
    | some s => simp

theorem settles_of_uses (h : t.Uses i s) : t.settles addr i = true ↔ s.addr = addr := by
  rw [← not_iff_not, Bool.not_eq_true, settles_eq_false]
  constructor
  · rintro ⟨s', hs', hne⟩
    rwa [h.eq hs']
  · exact fun hne => ⟨s, h, hne⟩

/-- The slot that is tried after `j` others when a search starts at `i`. -/
def nth (t : EntryTable) (i j : Nat) : Nat :=
  (i + j) % t.size

theorem nth_succ (t : EntryTable) (i j : Nat) : t.nth ((i + 1) % t.size) j = t.nth i (j + 1) := by
  rw [nth, nth, Nat.mod_add_mod, Nat.add_right_comm, Nat.add_assoc]

theorem seekFrom_eq_some (hi : i < t.size) :
    t.seekFrom addr n i = some q ↔
      ∃ j < n, q = t.nth i j ∧ t.settles addr q = true ∧
        ∀ k < j, t.settles addr (t.nth i k) = false := by
  induction n generalizing i with
  | zero => simp [seekFrom]
  | succ n ih =>
    have h0 : t.nth i 0 = i := Nat.mod_eq_of_lt hi
    have hnext : (i + 1) % t.size < t.size := Nat.mod_lt _ (by omega)
    rw [seekFrom]
    by_cases hs : t.settles addr i = true
    · rw [if_pos hs, Option.some.injEq]
      constructor
      · rintro rfl
        exact ⟨0, by omega, h0.symm, hs, by omega⟩
      · rintro ⟨j, -, rfl, -, hbefore⟩
        rcases Nat.eq_zero_or_pos j with rfl | hj
        · exact h0.symm
        · have hno := hbefore 0 hj
          rw [h0, hs] at hno
          cases hno
    · have hno : t.settles addr i = false := by simpa using hs
      rw [if_neg hs, ih hnext]
      constructor
      · rintro ⟨j, hj, rfl, hq, hbefore⟩
        rw [nth_succ] at hq ⊢
        refine ⟨j + 1, by omega, rfl, hq, ?_⟩
        intro k hk
        cases k with
        | zero => rwa [h0]
        | succ k => simpa only [nth_succ] using hbefore k (by omega)
      · rintro ⟨j, hj, rfl, hq, hbefore⟩
        cases j with
        | zero =>
          rw [h0] at hq
          exact absurd hq hs
        | succ j =>
          refine ⟨j, by omega, (nth_succ t i j).symm, hq, ?_⟩
          intro k hk
          rw [nth_succ]
          exact hbefore (k + 1) (by omega)

theorem seekFrom_eq_none (hi : i < t.size) :
    t.seekFrom addr n i = none ↔ ∀ j < n, t.settles addr (t.nth i j) = false := by
  constructor
  · intro hnone j hj
    induction j using Nat.strong_induction_on with
    | _ j ih =>
      by_contra hs
      have hfound := (seekFrom_eq_some hi).mpr
        ⟨j, hj, rfl, by simpa using hs, fun k hk => ih k hk (by omega)⟩
      rw [hnone] at hfound
      cases hfound
  · intro hall
    by_contra hsome
    obtain ⟨q, hq⟩ := Option.ne_none_iff_exists'.mp hsome
    obtain ⟨j, hj, rfl, hs, -⟩ := (seekFrom_eq_some hi).mp hq
    rw [hall j hj] at hs
    cases hs

/-- A search that may try as many slots as there are tries every slot. -/
theorem exists_nth (hi : i < t.size) (hq : q < t.size) : ∃ j < t.size, t.nth i j = q := by
  refine ⟨(q + (t.size - i)) % t.size, Nat.mod_lt _ (by omega), ?_⟩
  rw [nth, Nat.add_mod_mod, show i + (q + (t.size - i)) = q + t.size by omega, Nat.add_mod_right,
    Nat.mod_eq_of_lt hq]

theorem start_lt (h : 0 < t.size) (addr : UInt64) : t.start addr < t.size :=
  Nat.mod_lt _ h

theorem settles_of_seek (h : t.seek addr = some q) : q < t.size ∧ t.settles addr q = true := by
  have hpos : 0 < t.size := by
    by_contra hzero
    have hsize : t.size = 0 := by omega
    simp [seek, hsize, seekFrom] at h
  obtain ⟨j, -, rfl, hs, -⟩ := (seekFrom_eq_some (start_lt hpos addr)).mp h
  exact ⟨Nat.mod_lt _ hpos, hs⟩

theorem seek_eq_none : t.seek addr = none ↔ ∀ i < t.size, t.settles addr i = false := by
  rcases Nat.eq_zero_or_pos t.size with hzero | hpos
  · simp [seek, hzero, seekFrom]
  · have hstart := start_lt hpos addr
    rw [seek, seekFrom_eq_none hstart]
    constructor
    · intro h i hi
      obtain ⟨j, hj, rfl⟩ := exists_nth hstart hi
      exact h j hj
    · exact fun h j _ => h _ (Nat.mod_lt _ hpos)

/-- A search ends at the same slot in a table where no more slots end it, if this one still does. -/
theorem seek_of_settles (hsize : t'.size = t.size) (h : t.seek addr = some q)
    (hq : t'.settles addr q = true)
    (hle : ∀ i ≠ q, t.settles addr i = false → t'.settles addr i = false) :
    t'.seek addr = some q := by
  have hpos : 0 < t.size := (Nat.zero_le q).trans_lt (settles_of_seek h).1
  have hstart : t'.start addr = t.start addr := by rw [start, start, hsize]
  have hnth : ∀ i j, t'.nth i j = t.nth i j := by
    intro i j
    rw [nth, nth, hsize]
  obtain ⟨j, hj, hqj, hs, hbefore⟩ := (seekFrom_eq_some (start_lt hpos addr)).mp h
  refine (seekFrom_eq_some (start_lt (hsize ▸ hpos) addr)).mpr
    ⟨j, hsize ▸ hj, by rw [hstart, hnth, hqj], hq, ?_⟩
  intro k hk
  rw [hstart, hnth]
  refine hle _ ?_ (hbefore k hk)
  intro he
  rw [← he, hbefore k hk] at hs
  cases hs

/-- A search for the address of a slot in use ends at that slot. -/
def Sound (t : EntryTable) : Prop :=
  ∀ i s, t.Uses i s → t.seek s.addr = some i

theorem sound_empty (n : Nat) : (empty n).Sound := by
  intro i s h
  simp only [Uses, empty, Array.getElem?_replicate] at h
  split_ifs at h
  cases h

theorem Sound.inj (h : t.Sound) {j : Nat} (hi : t.Uses i s) (hj : t.Uses j s')
    (he : s.addr = s'.addr) : i = j := by
  have hij := (h i s hi).symm.trans (he ▸ h j s' hj)
  exact Option.some.inj hij

/-- A sound table is the map that its slots list. -/
theorem Sound.find?_eq_some (h : t.Sound) :
    t.find? addr = some entry ↔ ∃ i, t.Uses i ⟨addr, entry⟩ := by
  constructor
  · intro hfind
    unfold find? at hfind
    cases hseek : t.seek addr with
    | none => simp [hseek] at hfind
    | some q =>
      obtain ⟨hlt, hs⟩ := settles_of_seek hseek
      simp only [hseek, Array.getElem?_eq_getElem hlt, Option.join_some, Option.map_eq_some_iff]
        at hfind
      obtain ⟨s, hslot, rfl⟩ := hfind
      have huse : t.Uses q s := by rw [Uses, Array.getElem?_eq_getElem hlt, hslot]
      obtain rfl := (settles_of_uses huse).mp hs
      exact ⟨q, huse⟩
  · rintro ⟨i, hi⟩
    have hseek : t.seek addr = some i := h i _ hi
    simp only [find?, hseek]
    rw [show t[i]? = some (some ⟨addr, entry⟩) from hi]
    rfl

theorem Sound.find?_isSome (h : t.Sound) :
    (t.find? addr).isSome = true ↔ ∃ i s, t.Uses i s ∧ s.addr = addr := by
  rw [Option.isSome_iff_exists]
  constructor
  · rintro ⟨entry, he⟩
    obtain ⟨i, hi⟩ := h.find?_eq_some.mp he
    exact ⟨i, _, hi, rfl⟩
  · rintro ⟨i, ⟨a, entry⟩, hi, rfl⟩
    exact ⟨entry, h.find?_eq_some.mpr ⟨i, hi⟩⟩

theorem insert?_eq_some (h : t.insert? addr entry = some t') :
    ∃ q, t.seek addr = some q ∧ t' = t.setIfInBounds q (some ⟨addr, entry⟩) := by
  obtain ⟨q, hq, rfl⟩ := Option.map_eq_some_iff.mp h
  exact ⟨q, hq, rfl⟩

theorem size_insert? (h : t.insert? addr entry = some t') : t'.size = t.size := by
  obtain ⟨q, -, rfl⟩ := insert?_eq_some h
  exact Array.size_setIfInBounds

theorem uses_set (hq : q < t.size) :
    Uses (t.setIfInBounds q (some s)) i s' ↔ if q = i then s = s' else t.Uses i s' := by
  unfold Uses
  rw [Array.getElem?_setIfInBounds]
  split_ifs with he
  · simp
  · rfl

theorem Sound.insert? (h : t.Sound) (hins : t.insert? addr entry = some t') : t'.Sound := by
  obtain ⟨q, hq, rfl⟩ := insert?_eq_some hins
  obtain ⟨hlt, -⟩ := settles_of_seek hq
  have hnew : Uses (t.setIfInBounds q (some ⟨addr, entry⟩)) q ⟨addr, entry⟩ := by
    simp [uses_set hlt]
  -- a slot that a search went past is in use as before, or is the new one
  have hpast : ∀ x, x ≠ addr → ∀ i, t.settles x i = false →
      settles (t.setIfInBounds q (some ⟨addr, entry⟩)) x i = false := by
    intro x hx i hi
    obtain ⟨s, hs, hne⟩ := settles_eq_false.mp hi
    by_cases he : q = i
    · subst he
      exact settles_eq_false.mpr ⟨_, hnew, Ne.symm hx⟩
    · exact settles_eq_false.mpr ⟨s, by simpa [uses_set hlt, he] using hs, hne⟩
  intro i s hi
  rw [uses_set hlt] at hi
  split_ifs at hi with he
  · subst he hi
    refine seek_of_settles Array.size_setIfInBounds hq ((settles_of_uses hnew).mpr rfl) ?_
    intro i hne hi
    obtain ⟨s, hs, hsa⟩ := settles_eq_false.mp hi
    exact settles_eq_false.mpr ⟨s, by simpa [uses_set hlt, Ne.symm hne] using hs, hsa⟩
  · have hne : s.addr ≠ addr := by
      intro hsa
      have hseek := h i s hi
      rw [hsa, hq] at hseek
      exact he (Option.some.inj hseek)
    have huse : Uses (t.setIfInBounds q (some ⟨addr, entry⟩)) i s := by
      simpa [uses_set hlt, he] using hi
    exact seek_of_settles Array.size_setIfInBounds (h i s hi) ((settles_of_uses huse).mpr rfl)
      fun j _ => hpast s.addr hne j

theorem Sound.find?_insert? (h : t.Sound) (hins : t.insert? addr entry = some t') (x : UInt64) :
    t'.find? x = if addr = x then some entry else t.find? x := by
  have h' : t'.Sound := h.insert? hins
  obtain ⟨q, hq, rfl⟩ := insert?_eq_some hins
  obtain ⟨hlt, hsettles⟩ := settles_of_seek hq
  split_ifs with hx
  · subst hx
    exact h'.find?_eq_some.mpr ⟨q, by simp [uses_set hlt]⟩
  · ext e
    rw [h'.find?_eq_some, h.find?_eq_some]
    refine exists_congr fun i => ?_
    rw [uses_set hlt]
    split_ifs with he
    · subst he
      constructor
      · intro hs
        exact absurd (congrArg Slot.addr hs) hx
      · intro hs
        exact absurd ((settles_of_uses hs).mp hsettles).symm hx
    · rfl

def addresses (t : EntryTable) : List UInt64 :=
  t.toList.filterMap fun o => o.map Slot.addr

theorem length_addresses (t : EntryTable) : t.addresses.length = t.count := by
  unfold addresses count
  induction t.toList with
  | nil => rfl
  | cons o os ih => cases o <;> simp [ih]

theorem Sound.mem_addresses (h : t.Sound) : addr ∈ t.addresses ↔ (t.find? addr).isSome = true := by
  rw [h.find?_isSome, addresses, List.mem_filterMap]
  constructor
  · rintro ⟨o, ho, hs⟩
    obtain ⟨s, rfl, rfl⟩ := Option.map_eq_some_iff.mp hs
    obtain ⟨i, hi⟩ := List.mem_iff_getElem?.mp ho
    exact ⟨i, s, by simpa [Uses] using hi, rfl⟩
  · rintro ⟨i, s, hi, rfl⟩
    exact ⟨some s, List.mem_iff_getElem?.mpr ⟨i, by simpa [Uses] using hi⟩, rfl⟩

theorem Sound.nodup_addresses (h : t.Sound) : t.addresses.Nodup := by
  unfold addresses
  rw [List.Nodup, List.pairwise_filterMap, List.pairwise_iff_getElem]
  intro i j hi hj hij a ha b hb hab
  obtain ⟨s, hs, rfl⟩ := Option.map_eq_some_iff.mp ha
  obtain ⟨s', hs', rfl⟩ := Option.map_eq_some_iff.mp hb
  have hi' : t.Uses i s := by
    have : t[i]? = some t.toList[i] := by simp
    rw [Uses, this, hs]
  have hj' : t.Uses j s' := by
    have : t[j]? = some t.toList[j] := by simp
    rw [Uses, this, hs']
  have := h.inj hi' hj' hab
  omega

theorem count_eq_size : t.count = t.size ↔ ∀ i < t.size, ∃ s, t.Uses i s := by
  rw [count, ← Array.length_toList, List.countP_eq_length]
  constructor
  · intro h i hi
    obtain ⟨s, hs⟩ := Option.isSome_iff_exists.mp (h _ (List.getElem_mem hi))
    exact ⟨s, by rw [Uses, Array.getElem?_eq_getElem hi, ← hs, Array.getElem_toList]⟩
  · intro h o ho
    obtain ⟨i, hi, rfl⟩ := List.mem_iff_getElem.mp ho
    obtain ⟨s, hs⟩ := h i (by simpa using hi)
    have hslot : t.toList[i] = some s := by simpa [Uses] using (Array.getElem?_eq_some_iff.mp hs).2
    simp [hslot]

/-- Insertion fails for a new address in a full table, and only then. -/
theorem Sound.insert?_eq_none (h : t.Sound) :
    t.insert? addr entry = none ↔ t.find? addr = none ∧ t.count = t.size := by
  rw [EntryTable.insert?, Option.map_eq_none_iff, seek_eq_none, count_eq_size]
  constructor
  · intro hall
    refine ⟨?_, fun i hi => ?_⟩
    · simp [find?, seek_eq_none.mpr hall]
    · obtain ⟨s, hs, -⟩ := settles_eq_false.mp (hall i hi)
      exact ⟨s, hs⟩
  · rintro ⟨hnone, hfull⟩ i hi
    obtain ⟨s, hs⟩ := hfull i hi
    refine settles_eq_false.mpr ⟨s, hs, ?_⟩
    intro hsa
    have hfound := h.find?_isSome.mpr ⟨i, s, hs, hsa⟩
    simp [hnone] at hfound

end Dynarec.EntryTable
