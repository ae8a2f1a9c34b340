import Dynarec.Check.Harness
import Dynarec.Proofs.Text.Hexadecimal

/-!
# Differences are told exactly

Texts are compared in place of registers and of bytes. Every register has a name of its own, every row
of memory a key of its own, and numerals and rows of bytes can be read back. So rows tell the same as
what they were made of, and two sides differ just where the text says so.
-/
namespace Dynarec

open Text List

namespace Guest.Register

theorem toList_name {id : Nat} (hid : names.length ≤ id) :
    (name id).toList = 'r' :: Nat.toDigits 10 id := by
  simp [name, getElem?_eq_none hid, ← Nat.toList_repr]

/-- No register is called by a number. -/
theorem name_not_mem {id : Nat} (hid : names.length ≤ id) : name id ∉ names := by
  have hall : ∀ n ∈ names, n.toList.head? = some 'r' → n.toList.tail.all Char.isDigit = false := by
    decide +kernel
  intro hmem
  obtain ⟨c, hc, hdigit⟩ := all_eq_false.mp (hall _ hmem (by rw [toList_name hid]; rfl))
  rw [toList_name hid] at hc
  simp [Nat.isDigit_of_mem_toDigits (by decide) (by decide) hc] at hdigit

theorem name_injective : Function.Injective name := by
  have hnodup : names.Nodup := by decide +kernel
  have hinside {id : Nat} (hid : id < names.length) : name id = names[id] := by
    simp [name, getElem?_eq_getElem hid]
  have hboth {i j : Nat} (h : name i = name j) (hi : i < names.length) : j < names.length := by
    by_contra hj
    exact name_not_mem (not_lt.mp hj) (h ▸ hinside hi ▸ getElem_mem hi)
  intro i j h
  by_cases hi : i < names.length
  · have hj := hboth h hi
    rw [hinside hi, hinside hj] at h
    exact hnodup.getElem_inj_iff.mp h
  · have hj : ¬j < names.length := fun hj => hi (hboth h.symm hj)
    have hdigits := congrArg String.toList h
    rw [toList_name (not_lt.mp hi), toList_name (not_lt.mp hj), cons.injEq] at hdigits
    simpa [Nat.ofDigitChars_toDigits] using congrArg (Nat.ofDigitChars 10 · 0) hdigits.2

end Guest.Register

namespace Difference

/-- The rows show the texts that numbers have under `f`, with the keys of the numbers. -/
def Shows (key : Nat → String) (f : Nat → Option String) (rows : Rows) : Prop :=
  ∀ p, p ∈ rows ↔ ∃ id v, f id = some v ∧ p = (key id, v)

/-- The lines of the rows that are missing or different on the other side. -/
theorem mem_oldLines {g ws : Rows} {l : String} : l ∈ oldLines g ws ↔ ∃ front row back,
    ws = front ++ row :: back ∧ g.lookup row.1 ≠ some row.2 ∧ (l = line "-" back.isEmpty row ∨
      ∃ x, g.lookup row.1 = some x ∧ l = line "+" back.isEmpty (row.1, x)) := by
  induction ws with
  | nil => simp [oldLines]
  | cons row rest ih =>
    have hstep : l ∈ oldLines g (row :: rest) ↔ (g.lookup row.1 ≠ some row.2 ∧
        (l = line "-" rest.isEmpty row ∨
          ∃ x, g.lookup row.1 = some x ∧ l = line "+" rest.isEmpty (row.1, x))) ∨
        l ∈ oldLines g rest := by
      rw [oldLines]
      cases g.lookup row.1 with
      | none => simp
      | some x => by_cases hx : x = row.2 <;> simp [hx, or_assoc]
    rw [hstep, ih]
    constructor
    · rintro (hl | ⟨front, row', back, rfl, hl⟩)
      · exact ⟨[], row, rest, rfl, hl⟩
      · exact ⟨row :: front, row', back, rfl, hl⟩
    · rintro ⟨front, row', back, hsplit, hl⟩
      cases front with
      | nil =>
        cases hsplit
        exact Or.inl hl
      | cons first front =>
        cases hsplit
        exact Or.inr ⟨front, row', back, rfl, hl⟩

section Rows

variable {key : Nat → String} {f f' : Nat → Option String} {w g : Rows} (hkey : Function.Injective key)
include hkey

theorem Shows.mem_iff (hw : Shows key f w) {id : Nat} {v : String} :
    (key id, v) ∈ w ↔ f id = some v := by
  rw [hw]
  constructor
  · rintro ⟨id', v', hv, hp⟩
    obtain ⟨hid, rfl⟩ := Prod.mk.inj hp
    rwa [hkey hid]
  · exact fun hv => ⟨id, v, hv, rfl⟩

theorem Shows.lookup (hw : Shows key f w) (id : Nat) : w.lookup (key id) = f id := by
  cases h : w.lookup (key id) with
  | some v =>
    obtain ⟨front, back, rfl, -⟩ := lookup_eq_some_iff.mp h
    exact ((hw.mem_iff hkey).mp (by simp)).symm
  | none =>
    cases hv : f id with
    | none => rfl
    | some v =>
      have hne := lookup_eq_none_iff.mp h _ ((hw.mem_iff hkey).mpr hv)
      simp at hne

/-- Every line belongs to a number that the sides show differently. -/
theorem Shows.of_mem_lines (hw : Shows key f w) (hg : Shows key f' g) {l : String}
    (hl : l ∈ oldLines g w ++ newLines w g) : ∃ id last v, f id ≠ f' id ∧
      (f id = some v ∧ l = line "-" last (key id, v) ∨ f' id = some v ∧ l = line "+" last (key id, v)) := by
  rcases mem_append.mp hl with hl | hl
  · obtain ⟨front, row, back, hsplit, hne, hl⟩ := mem_oldLines.mp hl
    obtain ⟨id, v, hv, rfl⟩ := (hw row).mp (by simp [hsplit])
    rw [hg.lookup hkey] at hne hl
    have hdiff : f id ≠ f' id := fun heq => hne (heq.symm.trans hv)
    rcases hl with rfl | ⟨x, hx, rfl⟩
    · exact ⟨id, _, v, hdiff, Or.inl ⟨hv, rfl⟩⟩
    · exact ⟨id, _, x, hdiff, Or.inr ⟨hx, rfl⟩⟩
  · simp only [newLines, mem_map, mem_filter, Option.isNone_iff_eq_none] at hl
    obtain ⟨row, ⟨hrow, hnone⟩, rfl⟩ := hl
    obtain ⟨id, v, hv, rfl⟩ := (hg row).mp hrow
    rw [hw.lookup hkey] at hnone
    exact ⟨id, true, v, by simp [hv, hnone], Or.inr ⟨hv, rfl⟩⟩

/-- Both sides of a difference have a line. -/
theorem Shows.mem_lines (hw : Shows key f w) (hg : Shows key f' g) {id : Nat} (hne : f id ≠ f' id)
    (v : String) :
    (f id = some v → ∃ last, line "-" last (key id, v) ∈ oldLines g w ++ newLines w g) ∧
      (f' id = some v → ∃ last, line "+" last (key id, v) ∈ oldLines g w ++ newLines w g) := by
  have hold {x : String} (hx : f id = some x) : ∃ front back, w = front ++ (key id, x) :: back ∧
      g.lookup (key id) ≠ some x := by
    obtain ⟨front, back, hsplit⟩ := append_of_mem ((hw.mem_iff hkey).mpr hx)
    exact ⟨front, back, hsplit, fun h => hne (hx.trans (h ▸ hg.lookup hkey id))⟩
  constructor
  · intro hv
    obtain ⟨front, back, hsplit, hx⟩ := hold hv
    exact ⟨_, mem_append_left _ (mem_oldLines.mpr ⟨front, _, back, hsplit, hx, Or.inl rfl⟩)⟩
  · intro hv
    cases hx : f id with
    | some x =>
      obtain ⟨front, back, hsplit, hx⟩ := hold hx
      refine ⟨_, mem_append_left _ (mem_oldLines.mpr ⟨front, _, back, hsplit, hx, Or.inr ⟨v, ?_, rfl⟩⟩)⟩
      exact (hg.lookup hkey id).trans hv
    | none =>
      refine ⟨true, mem_append_right _ (mem_map.mpr ⟨(key id, v), ?_, rfl⟩)⟩
      simp [hg.mem_iff hkey, hv, hw.lookup hkey, hx]

omit hkey in
theorem rowText_eq_none_iff {k : String} : rowText w g k = none ↔ w.lookup k = g.lookup k := by
  unfold rowText
  cases w.lookup k <;> cases g.lookup k <;> simp

/-- Rows are equal under all keys of either side just if they show the same. -/
theorem Shows.rowText_iff (hw : Shows key f w) (hg : Shows key f' g) :
    (∀ k ∈ (w ++ g.filter fun row => (w.lookup row.1).isNone).map Prod.fst, rowText w g k = none) ↔
      ∀ id, f id = f' id := by
  simp only [rowText_eq_none_iff]
  constructor
  · intro h id
    by_cases hboth : f id = none ∧ f' id = none
    · rw [hboth.1, hboth.2]
    · rw [← hw.lookup hkey, ← hg.lookup hkey]
      refine h _ (mem_map.mpr ?_)
      cases hv : f id with
      | some v => exact ⟨(key id, v), mem_append_left _ ((hw.mem_iff hkey).mpr hv), rfl⟩
      | none =>
        obtain ⟨x, hx⟩ := Option.ne_none_iff_exists'.mp fun hx => hboth ⟨hv, hx⟩
        exact ⟨(key id, x), mem_append_right _ (by simp [hg.mem_iff hkey, hx, hw.lookup hkey, hv]), rfl⟩
  · intro h k hk
    obtain ⟨p, hp, rfl⟩ := mem_map.mp hk
    have hid : ∃ id, p.1 = key id := by
      rcases mem_append.mp hp with hp | hp
      · obtain ⟨id, v, -, rfl⟩ := (hw p).mp hp
        exact ⟨id, rfl⟩
      · obtain ⟨id, v, -, rfl⟩ := (hg p).mp (mem_filter.mp hp).1
        exact ⟨id, rfl⟩
    obtain ⟨id, hid⟩ := hid
    rw [hid, hw.lookup hkey, hg.lookup hkey, h id]

end Rows

theorem shows_registerRows (regs : List UInt64) :
    Shows Guest.Register.name (fun id => regs[id]?.map hexWord) (registerRows regs) := by
  intro p
  simp only [registerRows, sorted, mem_mergeSort, mem_mapIdx, Option.map_eq_some_iff,
    getElem?_eq_some_iff]
  constructor
  · rintro ⟨id, hid, rfl⟩
    exact ⟨id, _, ⟨_, ⟨hid, rfl⟩, rfl⟩, rfl⟩
  · rintro ⟨id, v, ⟨x, ⟨hid, rfl⟩, rfl⟩, rfl⟩
    exact ⟨id, hid, rfl⟩

/-- The text of row `k`, if the bytes reach it. -/
def rowOf (bytes : List UInt8) (k : Nat) : Option String :=
  let row := (bytes.drop (rowSize * k)).take rowSize
  if row = [] then none else some (hexBytes row)

theorem shows_memoryRows (offset : Nat) (bytes : List UInt8) :
    Shows (fun k => hexPadded 4 (offset + rowSize * k)) (rowOf bytes) (memoryRows offset bytes) := by
  fun_induction memoryRows offset bytes with
  | case1 => simp [Shows, rowOf]
  | case2 offset b bs ih =>
    intro p
    have hnext (k : Nat) : rowOf ((b :: bs).drop rowSize) k = rowOf (b :: bs) (k + 1) := by
      simp [rowOf, drop_drop, Nat.mul_add, Nat.add_comm]
    have hfirst : rowOf (b :: bs) 0 = some (hexBytes ((b :: bs).take rowSize)) := by
      simp [rowOf, rowSize]
    have hkeys (k : Nat) {v : String} : (hexPadded 4 (offset + rowSize + rowSize * k), v) =
        (hexPadded 4 (offset + rowSize * (k + 1)), v) := by
      rw [Nat.mul_succ, Nat.add_assoc, Nat.add_comm rowSize]
    rw [mem_cons, ih p]
    constructor
    · rintro (rfl | ⟨k, v, hv, rfl⟩)
      · exact ⟨0, _, hfirst, rfl⟩
      · exact ⟨k + 1, v, hnext k ▸ hv, hkeys k⟩
    · rintro ⟨k, v, hv, rfl⟩
      cases k with
      | zero =>
        rw [hfirst] at hv
        cases hv
        exact Or.inl rfl
      | succ k => exact Or.inr ⟨k, v, (hnext k).trans hv, (hkeys k).symm⟩

theorem rowOf_inj {want got : List UInt8} : (∀ k, rowOf want k = rowOf got k) ↔ want = got := by
  constructor
  · intro h
    have hrow (k : Nat) : (want.drop (rowSize * k)).take rowSize = (got.drop (rowSize * k)).take rowSize := by
      have hk := h k
      simp only [rowOf] at hk
      split_ifs at hk with hw hg hg
      · rw [hw, hg]
      · exact hexBytes_injective (Option.some.inj hk)
    have hget (bytes : List UInt8) (i : Nat) :
        bytes[i]? = ((bytes.drop (rowSize * (i / rowSize))).take rowSize)[i % rowSize]? := by
      rw [getElem?_take_of_lt (Nat.mod_lt _ (by decide)), getElem?_drop, Nat.div_add_mod]
    refine ext_getElem? fun i => ?_
    rw [hget want, hget got, hrow]
  · rintro rfl k
    rfl

theorem memoryKey_injective : Function.Injective fun k => hexPadded 4 (0 + rowSize * k) := by
  intro j k h
  have hoffset := hexPadded_injective 4 h
  simpa [rowSize] using hoffset

theorem memory_eq_empty_iff {want got : List UInt8} : memory want got = "" ↔ want = got := by
  have hrows := (shows_memoryRows 0 want).rowText_iff memoryKey_injective (shows_memoryRows 0 got)
  rw [← rowOf_inj, ← hrows, memory]
  simp only [ite_eq_left_iff, String.append_eq_empty_iff, all_eq_true, mem_map,
    mem_mergeSort, Option.isNone_iff_eq_none, forall_exists_index, and_imp,
    forall_apply_eq_imp_iff₂]
  simp

theorem hexWord_inj {want got : List UInt64} {id : Nat} :
    want[id]?.map hexWord = got[id]?.map hexWord ↔ want[id]? = got[id]? :=
  (Option.map_injective hexWord_injective).eq_iff

/-- The line that tells the value `x` of a register on the side of the mark. -/
def Tells (mark : String) (id : Nat) (x : UInt64) (l : String) : Prop :=
  ∃ last, l = line mark last (Guest.Register.name id, hexWord x)

/-- Every line tells a value of a register that differs. -/
theorem of_mem_registerLines {want got : List UInt64} {l : String} (hl : l ∈ registerLines want got) :
    ∃ (id : Nat) (x : UInt64), want[id]? ≠ got[id]? ∧
      (want[id]? = some x ∧ Tells "-" id x l ∨ got[id]? = some x ∧ Tells "+" id x l) := by
  obtain ⟨id, last, v, hne, hl⟩ := (shows_registerRows want).of_mem_lines Guest.Register.name_injective
    (shows_registerRows got) hl
  refine ⟨id, ?_⟩
  rcases hl with ⟨hv, rfl⟩ | ⟨hv, rfl⟩
  · obtain ⟨x, hx, rfl⟩ := Option.map_eq_some_iff.mp hv
    exact ⟨x, mt hexWord_inj.mpr hne, Or.inl ⟨hx, last, rfl⟩⟩
  · obtain ⟨x, hx, rfl⟩ := Option.map_eq_some_iff.mp hv
    exact ⟨x, mt hexWord_inj.mpr hne, Or.inr ⟨hx, last, rfl⟩⟩

/-- Of a register that differs, both values are told. -/
theorem mem_registerLines {want got : List UInt64} {id : Nat} (hne : want[id]? ≠ got[id]?) (x : UInt64) :
    (want[id]? = some x → ∃ l ∈ registerLines want got, Tells "-" id x l) ∧
      (got[id]? = some x → ∃ l ∈ registerLines want got, Tells "+" id x l) := by
  obtain ⟨hwant, hgot⟩ := (shows_registerRows want).mem_lines Guest.Register.name_injective
    (shows_registerRows got) (mt hexWord_inj.mp hne) (hexWord x)
  constructor
  · intro hx
    obtain ⟨last, hl⟩ := hwant (congrArg (Option.map hexWord) hx)
    exact ⟨_, hl, last, rfl⟩
  · intro hx
    obtain ⟨last, hl⟩ := hgot (congrArg (Option.map hexWord) hx)
    exact ⟨_, hl, last, rfl⟩

theorem registers_eq_empty_iff {want got : List UInt64} : registers want got = "" ↔ want = got := by
  have hjoin : registers want got = "" ↔ registerLines want got = [] := by
    rw [registers]
    cases h : registerLines want got with
    | nil => simp
    | cons l ls =>
      obtain ⟨id, x, -, ⟨-, last, hl⟩ | ⟨-, last, hl⟩⟩ := of_mem_registerLines (h ▸ mem_cons_self) <;>
        simp [hl, line, String.append_eq_empty_iff]
  rw [hjoin]
  constructor
  · intro hnil
    refine ext_getElem? fun id => ?_
    by_contra hne
    have hnone (x : UInt64) : want[id]? ≠ some x ∧ got[id]? ≠ some x := by
      have hlines := mem_registerLines hne x
      simpa only [hnil, not_mem_nil, false_and, exists_false, imp_false] using hlines
    exact hne ((Option.eq_none_iff_forall_ne_some.mpr fun x => (hnone x).1).trans
      (Option.eq_none_iff_forall_ne_some.mpr fun x => (hnone x).2).symm)
  · rintro rfl
    refine eq_nil_iff_forall_not_mem.mpr fun l hl => ?_
    obtain ⟨id, -, hne, -⟩ := of_mem_registerLines hl
    exact hne rfl

end Difference

namespace Snapshot

theorem contents_eq (s : Snapshot) :
    s.contents = s.memory ++ replicate (s.size - s.memory.length) 0 := by
  simp [contents, Window.padded]

/-- Bytes agree if they are equal with as many zeros behind them as make them equally long. -/
theorem agree_iff {as bs : List UInt8} {m n : Nat} (h : as.length + m = bs.length + n) :
    agree as bs = true ↔ as ++ replicate m 0 = bs ++ replicate n 0 := by
  fun_induction agree as bs with
  | case1 bs =>
    obtain rfl : m = bs.length + n := by simpa using h
    rw [nil_append, ← replicate_append_replicate, append_left_inj,
      eq_comm (a := replicate _ _), eq_replicate_iff]
    simp
  | case2 a as =>
    obtain rfl : n = (a :: as).length + m := by simpa using h.symm
    rw [nil_append, ← replicate_append_replicate, append_left_inj, eq_replicate_iff]
    simp
  | case3 a as b bs ih =>
    rw [Bool.and_eq_true, beq_iff_eq, ih (by simp only [length_cons] at h; omega), cons_append,
      cons_append, cons.injEq]

theorem sameMemory_iff {a b : Snapshot} : a.sameMemory b = true ↔ a.contents = b.contents := by
  rw [sameMemory, Bool.and_eq_true, beq_iff_eq, contents_eq, contents_eq]
  constructor
  · rintro ⟨hlen, hagree⟩
    exact (agree_iff (by omega)).mp hagree
  · intro h
    have hlen := congrArg length h
    simp only [length_append, length_replicate] at hlen
    exact ⟨by omega, (agree_iff hlen).mpr h⟩

end Snapshot

theorem Harness.compare_eq_none_iff (h : Harness) (stage : String) (want got : Snapshot) :
    h.compare stage want got = none ↔ (∀ id : Nat,
      want.registers[id]?.map (· &&& h.options.width.mask) =
        got.registers[id]?.map (· &&& h.options.width.mask)) ∧ want.contents = got.contents := by
  have hmemory : (if want.sameMemory got then "" else
      Difference.memory want.contents got.contents) = "" ↔ want.contents = got.contents := by
    rw [ite_eq_left_iff, Difference.memory_eq_empty_iff, ← Snapshot.sameMemory_iff, not_imp_self]
  simp only [compare, ite_eq_left_iff, reduceCtorEq, imp_false, not_not, hmemory,
    Difference.registers_eq_empty_iff, ← List.getElem?_map]
  rw [List.ext_getElem?_iff]

end Dynarec
