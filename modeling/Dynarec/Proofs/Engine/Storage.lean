import Dynarec.Proofs.Engine.History

/-!
# Stored code stays as it was written

Every entry point in the cache leads to the bytes that assembly wrote for the call that stored it, in
the buffer of its own page, and no two of them share a byte. A call changes no page but that of its
address; binding a guest and invalidating a range only empty pages.
-/
namespace Dynarec

open Machine (CodeBuffer)
open CodeCache

namespace Engine

/-- What was filed last under a key. -/
def latest? (ledger : List Filed) (key : UInt64) : Option Filed :=
  ledger.find? fun f => f.key == key

theorem latest?_cons (f : Filed) (ledger : List Filed) (key : UInt64) :
    latest? (f :: ledger) key = if f.key = key then some f else latest? ledger key := by
  unfold latest?
  rw [List.find?_cons]
  by_cases h : f.key = key
  · rw [beq_iff_eq.mpr h, if_pos h]
  · rw [beq_false_of_ne h, if_neg h]

namespace Snippet

variable {s t : Snippet} {b b' : CodeBuffer}

/-- The snippet stands in a buffer, before its write position. -/
structure In (s : Snippet) (b : CodeBuffer) : Prop where
  nonempty : s.bytes ≠ []
  stop : (s.stop : Int) ≤ b.offset
  bytes : b.extract s.offset s.stop = s.bytes

def Apart (s t : Snippet) : Prop :=
  s.stop ≤ t.offset ∨ t.stop ≤ s.offset

theorem In.keeps (h : s.In b) (hkeeps : CodeBuffer.Keeps b b') : s.In b' := by
  refine ⟨h.nonempty, h.stop.trans hkeeps.offset, ?_⟩
  rw [← h.bytes]
  refine List.map_congr_left fun i hi => hkeeps.bytes _ ?_
  have hstop := h.stop
  have hlt := List.mem_range.mp hi
  omega

theorem in_of_extract {o n : Nat} (hn : 0 < n) (hstop : ((o + n : Nat) : Int) ≤ b.offset) :
    (Snippet.mk o (b.extract o (o + n))).In b := by
  have hlength : (b.extract o (o + n)).length = n := by simp [CodeBuffer.extract]
  refine ⟨List.ne_nil_of_length_pos (hlength.symm ▸ hn), ?_, ?_⟩
  · rw [Snippet.stop, hlength]
    exact hstop
  · rw [Snippet.stop, hlength]

end Snippet

end Engine

open Engine (Filed Snippet Call latest? latest?_cons)

variable {ledger : List Filed} {f : Filed}

namespace Page

variable {page : Page} {base size : Nat}

/-- The buffer of a page is in order, and each used slot of its table leads to what was filed last under
its address. The buffer starts `base` bytes behind the start of the region. -/
structure Holds (ledger : List Filed) (base size : Nat) (page : Page) : Prop where
  low : 0 ≤ page.buffer.offset
  high : page.buffer.offset ≤ page.buffer.capacity
  capacity : page.buffer.capacity = size
  error : page.buffer.error = none
  code : ∀ i s, page.table.Uses i s → ∃ f, latest? ledger s.addr = some f ∧
    s.entry.toNat = regionBase.toNat + base + f.offset ∧ f.toSnippet.In page.buffer
  apart : ∀ i j s t f f', page.table.Uses i s → page.table.Uses j t → i ≠ j →
    latest? ledger s.addr = some f → latest? ledger t.addr = some f' →
    f.toSnippet.Apart f'.toSnippet

theorem Holds.keeps (h : page.Holds ledger base size) {b : CodeBuffer}
    (hkeeps : CodeBuffer.Keeps page.buffer b) (herror : b.error = none) :
    Holds ledger base size { page with buffer := b } := by
  refine ⟨h.low.trans hkeeps.offset, hkeeps.high, hkeeps.capacity.trans h.capacity, herror, ?_, h.apart⟩
  intro i s hs
  obtain ⟨f, hf, hentry, hin⟩ := h.code i s hs
  exact ⟨f, hf, hentry, hin.keeps hkeeps⟩

theorem Holds.cons (h : page.Holds ledger base size)
    (hother : ∀ i s, page.table.Uses i s → f.key ≠ s.addr) : page.Holds (f :: ledger) base size := by
  have hlatest (i : Nat) (s : Slot) (hs : page.table.Uses i s) :
      latest? (f :: ledger) s.addr = latest? ledger s.addr := by
    rw [latest?_cons, if_neg (hother i s hs)]
  refine ⟨h.low, h.high, h.capacity, h.error, fun i s hs => ?_, ?_⟩
  · rw [hlatest i s hs]
    exact h.code i s hs
  · intro i j s t x y hi hj hij hx hy
    rw [hlatest i s hi] at hx
    rw [hlatest j t hj] at hy
    exact h.apart i j s t x y hi hj hij hx hy

/-- A new entry leads to code behind all that the table knew. -/
theorem Holds.insert (h : page.Holds ledger base size) (hsound : page.table.Sound) {entry : UInt64}
    {table : EntryTable} (hins : page.table.insert? f.key entry = some table)
    (hentry : entry.toNat = regionBase.toNat + base + f.offset)
    (hin : f.toSnippet.In page.buffer)
    (hbehind : ∀ i s x, page.table.Uses i s → latest? ledger s.addr = some x → x.stop ≤ f.offset) :
    Holds (f :: ledger) base size { page with table } := by
  obtain ⟨q, hq, rfl⟩ := EntryTable.insert?_eq_some hins
  have hlt := (EntryTable.settles_of_seek hq).1
  -- the other slots are for other addresses
  have hother (i : Nat) (s : Slot) (hi : q ≠ i) (hs : page.table.Uses i s) :
      latest? (f :: ledger) s.addr = latest? ledger s.addr := by
    rw [latest?_cons, if_neg]
    intro hkey
    have hseek := hsound i s hs
    rw [← hkey, hq, Option.some.injEq] at hseek
    exact hi hseek
  have hnew : latest? (f :: ledger) f.key = some f := by rw [latest?_cons, if_pos rfl]
  refine ⟨h.low, h.high, h.capacity, h.error, ?_, ?_⟩
  · intro i s hs
    rw [EntryTable.uses_set hlt] at hs
    split_ifs at hs with hi
    · subst hs
      exact ⟨f, hnew, hentry, hin⟩
    · rw [hother i s hi hs]
      exact h.code i s hs
  · intro i j s t x y hs ht hij hx hy
    rw [EntryTable.uses_set hlt] at hs ht
    split_ifs at hs with hi
    · subst hs hi
      rw [if_neg hij] at ht
      rw [hnew, Option.some.injEq] at hx
      rw [hother j t hij ht] at hy
      subst hx
      exact Or.inr (hbehind j t y ht hy)
    · rw [hother i s hi hs] at hx
      split_ifs at ht with hj
      · subst ht
        rw [hnew, Option.some.injEq] at hy
        subst hy
        exact Or.inl (hbehind i s x hs hx)
      · rw [hother j t hj ht] at hy
        exact h.apart i j s t x y hs ht hij hx hy

end Page

namespace CodeCache

variable {c : CodeCache} {p : Nat} {key : UInt64}

/-- Every page of a cache holds the code that the ledger tells of. -/
structure Holds (ledger : List Filed) (c : CodeCache) : Prop where
  sound : c.Sound
  nonempty : 0 < c.pageCount
  region : c.pageCount * c.bufferSize ≤ 2 ^ 47
  page : ∀ p, (c.page p).Holds ledger (p * c.bufferSize) c.bufferSize

theorem Holds.inside (h : c.Holds ledger) (p : Nat) : (c.page p).buffer.Inside := by
  refine ⟨(h.page p).low, (h.page p).high, ?_⟩
  have hsize : c.bufferSize ≤ c.pageCount * c.bufferSize := Nat.le_mul_of_pos_left _ h.nonempty
  have hregion := h.region
  rw [(h.page p).capacity]
  omega

theorem holds_emptyPage (ledger : List Filed) (c : CodeCache) (base : Nat) :
    c.emptyPage.Holds ledger base c.bufferSize := by
  refine ⟨le_rfl, Int.natCast_nonneg _, rfl, rfl, ?_, ?_⟩
  · intro i s hs
    exact absurd hs not_uses_empty
  · intro i j s t x y hs
    exact absurd hs not_uses_empty

theorem Holds.invalidate (h : c.Holds ledger) (start stop : UInt64) :
    (c.invalidate start stop).2.Holds ledger := by
  refine ⟨h.sound.invalidate start stop, h.nonempty, h.region, fun p => ?_⟩
  rw [page_invalidate]
  split_ifs
  · exact holds_emptyPage ledger c _
  · exact h.page p

theorem setBuffer_eq (hp : c.page? key = some p) (b : CodeBuffer) :
    c.setBuffer key b = c.setPage p { c.page p with buffer := b } := by
  simp [setBuffer, hp]

theorem Sound.setBuffer (h : c.Sound) (hp : c.page? key = some p) (b : CodeBuffer) :
    (c.setBuffer key b).Sound := by
  rw [setBuffer_eq hp]
  exact h.setPage (h.table p) (h.size p) h.home

theorem Holds.setBuffer (h : c.Holds ledger) (hp : c.page? key = some p) {b : CodeBuffer}
    (hkeeps : CodeBuffer.Keeps (c.page p).buffer b) (herror : b.error = none) :
    (c.setBuffer key b).Holds ledger := by
  have hsound := h.sound.setBuffer hp b
  rw [setBuffer_eq hp] at hsound ⊢
  refine ⟨hsound, h.nonempty, h.region, fun q => ?_⟩
  rw [page_setPage]
  split_ifs with hq
  · subst hq
    exact (h.page p).keeps hkeeps herror
  · exact h.page q

theorem Holds.entryAt (h : c.Holds ledger) (hp : p < c.pageCount) {o : Nat} (ho : o ≤ c.bufferSize) :
    (c.entryAt p o).toNat = regionBase.toNat + p * c.bufferSize + o := by
  have hend : (p + 1) * c.bufferSize ≤ c.pageCount * c.bufferSize := Nat.mul_le_mul_right _ hp
  have hregion := h.region
  have hbase : regionBase.toNat = 0x7f0000000000 := rfl
  have hword : UInt64.size = 2 ^ 64 := rfl
  rw [Nat.add_mul, Nat.one_mul] at hend
  have hplace : (p * c.bufferSize + o).toUInt64.toNat = p * c.bufferSize + o :=
    UInt64.toNat_ofNat_of_lt' (by omega)
  rw [CodeCache.entryAt, UInt64.toNat_add, hplace, Nat.mod_eq_of_lt (by omega)]
  omega

theorem Holds.update (h : c.Holds ledger) {c' : CodeCache} {entry : UInt64}
    (hup : c.update f.key entry = .ok c') (hp : c.page? f.key = some p)
    (hentry : entry = c.entryAt p f.offset) (hin : f.toSnippet.In (c.page p).buffer)
    (hbehind : ∀ i s x, (c.page p).table.Uses i s → latest? ledger s.addr = some x →
      x.stop ≤ f.offset) : c'.Holds (f :: ledger) := by
  have hsound := h.sound.update hup
  obtain ⟨p', table, hp', hins, rfl⟩ := update_eq_ok hup
  rw [hp, Option.some.injEq] at hp'
  subst hp'
  have hroom : f.offset ≤ c.bufferSize := by
    have hstop := hin.stop
    have hhigh := (h.page p).high
    have hcapacity := (h.page p).capacity
    unfold Snippet.stop at hstop
    omega
  refine ⟨hsound, h.nonempty, h.region, fun q => ?_⟩
  rw [page_setPage]
  split_ifs with hq
  · subst hq
    refine (h.page p).insert (h.sound.table p) hins ?_ hin hbehind
    rw [hentry, h.entryAt (page?_eq_some.mp hp).2 hroom]
  · refine (h.page q).cons fun i s hs hkey => hq ?_
    have hhome := h.sound.home hs
    rw [← hkey, hp, Option.some.injEq] at hhome
    exact hhome

end CodeCache

namespace Engine

variable {e : Engine} {key addr : UInt64} {g : Graph} {count : Nat}

theorem holds_attempt (h : e.cache.Holds ledger) (key : UInt64) (g : Graph) (addr : UInt64)
    (count : Nat) : (e.attempt key g).2.cache.Holds
      (((e.stored key g).map fun s : Snippet => s.file key addr count).toList ++ ledger) := by
  rcases e.attempt_cases key g with ⟨hp, f, hattempt⟩ | ⟨p, hp, ⟨f, b, hasm, f', hattempt⟩ |
    ⟨code, b, hasm, ⟨f, hattempt⟩ | ⟨c, hup, hattempt⟩⟩⟩
  · simpa [stored, hp, hattempt] using h
  · obtain ⟨hkeeps, herror, -⟩ := Native.assemble_error ⟨h.inside p, (h.page p).error⟩ hasm
    simpa [stored, hp, hattempt] using h.setBuffer hp hkeeps herror
  · obtain ⟨hkeeps, herror, -⟩ := Native.assemble_ok ⟨h.inside p, (h.page p).error⟩ hasm
    simpa [stored, hp, hattempt] using h.setBuffer hp hkeeps herror
  · obtain ⟨hkeeps, herror, hlength, hend, hoffset⟩ :=
      Native.assemble_ok ⟨h.inside p, (h.page p).error⟩ hasm
    have hset := h.setBuffer hp hkeeps herror
    have hpage : ((e.cache.setBuffer key b).page p) = { e.cache.page p with buffer := b } := by
      rw [setBuffer_eq hp, page_setPage, if_pos rfl]
    simp only [stored, hp, hattempt, hasm, Option.map_some, Option.toList_some, List.singleton_append]
    refine hset.update hup (f := Snippet.file _ key addr count) (p := p) ?_ ?_ ?_ ?_
    · rw [setBuffer_eq hp]
      exact hp
    · rw [setBuffer_eq hp]
      rfl
    · rw [hpage]
      exact Snippet.in_of_extract hlength hend.ge
    · intro i s x hs hx
      rw [hpage] at hs
      obtain ⟨x', hx', -, hin⟩ := (h.page p).code i s hs
      rw [hx, Option.some.injEq] at hx'
      subst hx'
      have hstop := hin.stop
      change x.stop ≤ code.offset
      omega

/-- The page is emptied at most between two attempts, and the first one filed nothing. -/
theorem holds_lastTry (h : e.cache.Holds ledger) (key : UInt64) (g : Graph) :
    (e.lastTry key g).cache.Holds ledger := by
  rcases e.lastTry_cases key g with hkeep | ⟨f, hfirst, hclear⟩
  · rw [hkeep]
    exact h
  · have hholds := holds_attempt h key g 0 0
    have hnone : e.stored key g = none := by
      unfold stored
      rw [hfirst]
      cases e.cache.page? key <;> rfl
    rw [hnone] at hholds
    rw [hclear]
    exact hholds.invalidate key (key + 1)

/-- A call keeps what the cache holds and adds what it files. -/
theorem holds_after (h : e.cache.Holds ledger) (call : Call) :
    (e.after call).cache.Holds ((e.filed call).toList ++ ledger) := by
  rcases e.after_cases call with ⟨hcache, hfiled⟩ | ⟨-, hfiled, start, stop, hcache⟩ |
    ⟨addr, code, -, key, g, space, -, hcache, hfiled, -⟩
  · rw [hcache, hfiled]
    exact h
  · rw [hcache, hfiled]
    exact h.invalidate start stop
  · rw [hcache, hfiled]
    exact holds_attempt (holds_lastTry (e := { e with space }) h key g) key g addr _

theorem holds_create {s : Settings} (h : create s = .ok e) : e.cache.Holds [] := by
  obtain ⟨-, hcount, hbuffer, -, hregion, hcache⟩ := CodeCache.create_eq_ok (create_eq_ok h).1
  have hpages : e.cache.pages = {} := by rw [hcache]
  refine ⟨CodeCache.sound_of_pages_eq_empty hpages, ?_, ?_, fun p => ?_⟩
  · rw [hcache]
    simp only
    omega
  · rw [hcache]
    simp only
    zify
    rw [Int.toNat_of_nonneg hcount.le, Int.toNat_of_nonneg hbuffer.le]
    exact hregion
  · rw [CodeCache.page_of_pages_eq_empty hpages]
    exact CodeCache.holds_emptyPage [] e.cache _

theorem holds_history (h : e.cache.Holds []) (calls : List Call) :
    (e.history calls).2.cache.Holds (e.history calls).1 := by
  unfold history
  induction calls using List.reverseRecOn with
  | nil => exact h
  | append_singleton calls call ih =>
    rw [List.foldl_append]
    exact holds_after ih call

/-- A call leaves a page alone, unless the page is that of its site or it only empties pages. -/
def Confined (e : Engine) (call : Call) : Prop :=
  ∀ p, (e.after call).cache.page p = e.cache.page p ∨
    (∃ addr, call.site? = some addr ∧ e.cache.page? (e.key addr) = some p) ∨
    (call.mayClear = true ∧ (e.after call).cache.page p = e.cache.emptyPage)

theorem page_attempt (e : Engine) (key : UInt64) (g : Graph) {q : Nat}
    (hq : e.cache.page? key ≠ some q) : (e.attempt key g).2.cache.page q = e.cache.page q := by
  rcases e.attempt_cases key g with ⟨-, f, hattempt⟩ | ⟨p, hp, hrest⟩
  · rw [hattempt]
  · have hne : p ≠ q := fun he => hq (he ▸ hp)
    have hset (b : CodeBuffer) : (e.cache.setBuffer key b).page q = e.cache.page q := by
      rw [setBuffer_eq hp, page_setPage, if_neg hne]
    rcases hrest with ⟨f, b, -, f', hattempt⟩ | ⟨code, b, -, ⟨f, hattempt⟩ | ⟨c, hup, hattempt⟩⟩
    · rw [hattempt]
      exact hset b
    · rw [hattempt]
      exact hset b
    · obtain ⟨p', table, hp', -, rfl⟩ := update_eq_ok hup
      have heq : p' = p := by
        rw [setBuffer_eq hp] at hp'
        exact Option.some.inj (hp'.symm.trans hp)
      rw [hattempt, page_setPage, if_neg (heq ▸ hne)]
      exact hset b

theorem page_lastTry (e : Engine) (key : UInt64) (g : Graph) {q : Nat}
    (hq : e.cache.page? key ≠ some q) : (e.lastTry key g).cache.page q = e.cache.page q := by
  rcases e.lastTry_cases key g with hkeep | ⟨f, -, hclear⟩
  · rw [hkeep]
  · obtain ⟨pages, hshape⟩ := e.sameShape_attempt key g
    rw [hclear, page_invalidate, if_neg]
    · exact e.page_attempt key g hq
    · -- the page of the key is the only one that overlaps a range of one address
      rw [hshape]
      rintro ⟨hlt, b, hstart, hstop, rfl⟩
      have hb : b = key := by
        rw [UInt64.le_iff_toNat_le] at hstart
        rw [UInt64.lt_iff_toNat_lt, UInt64.toNat_add] at hstop
        refine UInt64.toNat_inj.mp ?_
        have := key.toNat_lt
        have := b.toNat_lt
        simp only [UInt64.toNat_one] at hstop
        omega
      exact hq (page?_eq_some.mpr ⟨hb ▸ rfl, hlt⟩)

theorem confined (e : Engine) (call : Call) : e.Confined call := by
  intro p
  rcases e.after_cases call with ⟨hcache, -⟩ | ⟨hclear, -, start, stop, hcache⟩ |
    ⟨addr, code, hsite, key, g, space, hkey, hcache, -⟩
  · exact Or.inl (by rw [hcache])
  · rw [hcache, page_invalidate]
    split_ifs
    · exact Or.inr (Or.inr ⟨hclear, rfl⟩)
    · exact Or.inl rfl
  · by_cases hp : e.cache.page? key = some p
    · obtain ⟨rfl, -⟩ := locate_eq_ok hkey
      exact Or.inr (Or.inl ⟨addr, hsite, hp⟩)
    · obtain ⟨pages, hshape⟩ := sameShape_lastTry { e with space } key g
      refine Or.inl ?_
      rw [hcache, page_attempt _ key g, page_lastTry { e with space } key g hp]
      rw [hshape]
      exact hp

/-- A region that returns, compiled at two addresses and once more at the first of them. -/
def returns : List Call :=
  let code := [0x03, 0xe0, 0, 8, 0, 0, 0, 0]
  [.bind ⟨0⟩, .compile 0 code, .compile 8 code, .explain 0 code]

end Engine

end Dynarec
