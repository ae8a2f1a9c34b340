import Dynarec.Cache.Pages
import Dynarec.Proofs.Cache.Table

/-!
# Code caches as bounded maps

The cache is described by what happened to it: entry points that were stored and ranges of addresses
that were cleared. What it has for an address is the latest entry point stored for it, unless a range
that overlaps its page was cleared since. A store fails for an address outside the pages, and for a new
address whose page is full.
-/
namespace Dynarec.CodeCache

variable {kv : Nat × Page} {past : List Event} {c₀ : CodeCache}

variable {c c' : CodeCache} {addr entry start stop : UInt64} {p : Nat}

theorem page_setPage (c : CodeCache) (p : Nat) (page : Page) (q : Nat) :
    (c.setPage p page).page q = if p = q then page else c.page q := by
  unfold CodeCache.page setPage
  rw [Std.HashMap.getElem?_insert]
  by_cases h : p = q
  · simp [h]
  · simp [h, emptyPage]

theorem page?_eq_some :
    c.page? addr = some p ↔ addr.toNat >>> c.pageShift = p ∧ p < c.pageCount := by
  simp only [page?]
  split_ifs with h
  · rw [Option.some.injEq]
    constructor
    · rintro rfl
      exact ⟨rfl, h⟩
    · exact And.left
  · simp only [false_iff, not_and]
    rintro rfl
    exact h

theorem page?_eq_none : c.page? addr = none ↔ c.pageCount ≤ addr.toNat >>> c.pageShift := by
  simp only [page?]
  split_ifs with h
  · simpa using h
  · simpa using h

/-- The entry point that the cache has for an address. -/
def find? (c : CodeCache) (addr : UInt64) : Option UInt64 :=
  (c.page? addr).bind fun p => (c.page p).table.find? addr

theorem find?_of_page? (h : c.page? addr = some p) : c.find? addr = (c.page p).table.find? addr := by
  simp [find?, h]

theorem entry_eq_find? (c : CodeCache) (addr : UInt64) :
    c.entry addr = if c.canReach addr then (c.find? addr).getD 0 else 0 := by
  unfold CodeCache.entry canReach find?
  cases c.page? addr with
  | none => rfl
  | some p => rfl

/-- Every table is sound, has its size, and has only addresses of its page. -/
structure Sound (c : CodeCache) : Prop where
  table : ∀ p, (c.page p).table.Sound
  size : ∀ p, (c.page p).table.size = c.mapSize
  home : ∀ {p i s}, (c.page p).table.Uses i s → c.page? s.addr = some p

theorem emptyPage_table (c : CodeCache) : c.emptyPage.table = EntryTable.empty c.mapSize := rfl

theorem not_uses_empty {n i : Nat} {s : Slot} : ¬ (EntryTable.empty n).Uses i s := by
  intro hs
  simp only [EntryTable.Uses, EntryTable.empty, Array.getElem?_replicate] at hs
  split_ifs at hs
  cases hs

theorem sound_of_page (h : ∀ p, c.page p = c.emptyPage ∨ (c.page p).table.Sound ∧
    (c.page p).table.size = c.mapSize ∧
    ∀ {i s}, (c.page p).table.Uses i s → c.page? s.addr = some p) : c.Sound := by
  refine ⟨fun p => ?_, fun p => ?_, fun {p i s} hs => ?_⟩
  all_goals rcases h p with hp | ⟨htable, hsize, hhome⟩
  · exact hp ▸ EntryTable.sound_empty c.mapSize
  · exact htable
  · exact hp ▸ Array.size_replicate
  · exact hsize
  · rw [hp] at hs
    exact absurd hs not_uses_empty
  · exact hhome hs

theorem Sound.setPage (h : c.Sound) {page : Page} (htable : page.table.Sound)
    (hsize : page.table.size = c.mapSize)
    (hhome : ∀ {i s}, page.table.Uses i s → c.page? s.addr = some p) : (c.setPage p page).Sound := by
  refine sound_of_page fun q => Or.inr ?_
  rw [page_setPage]
  split_ifs with he
  · subst he
    exact ⟨htable, hsize, hhome⟩
  · exact ⟨h.table q, h.size q, h.home⟩

theorem update_eq_ok (h : c.update addr entry = .ok c') :
    ∃ p table, c.page? addr = some p ∧ (c.page p).table.insert? addr entry = some table ∧
      c' = c.setPage p { c.page p with table } := by
  unfold update at h
  cases hp : c.page? addr with
  | none => simp [hp] at h
  | some p =>
    simp only [hp] at h
    split_ifs at h with hroom
    cases hins : (c.page p).table.insert? addr entry with
    | none => simp [hins] at h
    | some table =>
      simp only [hins, Except.ok.injEq] at h
      exact ⟨p, table, rfl, hins, h.symm⟩

theorem Sound.update (h : c.Sound) (hup : c.update addr entry = .ok c') : c'.Sound := by
  obtain ⟨p, table, hp, hins, rfl⟩ := update_eq_ok hup
  refine h.setPage ((h.table p).insert? hins) ((EntryTable.size_insert? hins).trans (h.size p)) ?_
  intro i s hs
  have htable : table.Sound := (h.table p).insert? hins
  have hfound := htable.find?_isSome.mpr ⟨i, s, hs, rfl⟩
  rw [(h.table p).find?_insert? hins] at hfound
  split_ifs at hfound with he
  · rwa [← he]
  · obtain ⟨j, s', hs', hs'a⟩ := (h.table p).find?_isSome.mp hfound
    rw [← hs'a]
    exact h.home hs'

theorem Sound.find?_update (h : c.Sound) (hup : c.update addr entry = .ok c') (x : UInt64) :
    c'.find? x = if addr = x then some entry else c.find? x := by
  obtain ⟨p, table, hp, hins, rfl⟩ := update_eq_ok hup
  have hpage? : (c.setPage p { c.page p with table }).page? x = c.page? x := rfl
  unfold find?
  rw [hpage?]
  split_ifs with he
  · subst he
    simp [hp, page_setPage, (h.table p).find?_insert? hins]
  · refine Option.bind_congr fun q _ => ?_
    rw [page_setPage]
    split_ifs with hq
    · subst hq
      simp [(h.table p).find?_insert? hins, he]
    · rfl

/-- Some address of the range from `start` up to, not including, `stop` lies in page `p`. -/
def Overlaps (shift : Nat) (start stop : UInt64) (p : Nat) : Prop :=
  ∃ b : UInt64, start ≤ b ∧ b < stop ∧ b.toNat >>> shift = p

theorem overlaps_iff {shift : Nat} : Overlaps shift start stop p ↔
    start < stop ∧ start.toNat >>> shift ≤ p ∧ p ≤ (stop - 1).toNat >>> shift := by
  simp only [Overlaps, Nat.shiftRight_eq_div_pow, UInt64.le_iff_toNat_le, UInt64.lt_iff_toNat_lt]
  have hpos : 0 < 2 ^ shift := Nat.two_pow_pos shift
  have hpred (h : start.toNat < stop.toNat) : (stop - 1).toNat = stop.toNat - 1 :=
    UInt64.toNat_sub_of_le _ _ (by rw [UInt64.le_iff_toNat_le]; exact Nat.one_le_of_lt h)
  constructor
  · rintro ⟨b, hstart, hstop, rfl⟩
    have hlt := hstart.trans_lt hstop
    rw [hpred hlt]
    exact ⟨hlt, Nat.div_le_div_right hstart, Nat.div_le_div_right (by omega)⟩
  · rintro ⟨hlt, hfirst, hlast⟩
    rw [hpred hlt] at hlast
    -- the first address of the page, or of the range if that comes later
    have hbase : p * 2 ^ shift ≤ stop.toNat - 1 := (Nat.le_div_iff_mul_le hpos).mp hlast
    have hbound : p * 2 ^ shift < 2 ^ 64 := by
      have := stop.toNat_lt
      omega
    rcases hfirst.eq_or_lt with he | hlow
    · exact ⟨start, le_rfl, hlt, he⟩
    · have hbelow : start.toNat < p * 2 ^ shift := (Nat.div_lt_iff_lt_mul hpos).mp hlow
      refine ⟨.ofNat (p * 2 ^ shift), ?_, ?_, ?_⟩
      all_goals rw [UInt64.toNat_ofNat_of_lt' hbound]
      · exact hbelow.le
      · omega
      · exact Nat.mul_div_cancel p hpos

instance (shift : Nat) (start stop : UInt64) (p : Nat) : Decidable (Overlaps shift start stop p) :=
  decidable_of_iff _ overlaps_iff.symm

/-- The pages of the cache that overlap a range are those of `pageRange`. -/
theorem mem_pageRange :
    (c.pageRange start stop).1 ≤ p ∧ p < (c.pageRange start stop).2 ↔
      p < c.pageCount ∧ Overlaps c.pageShift start stop p := by
  unfold pageRange
  rw [overlaps_iff]
  by_cases h : stop ≤ start
  · have hno : ¬ start < stop := UInt64.not_lt.mpr h
    simp [h, hno]
  · have hlt : start < stop := UInt64.not_le.mp h
    simp only [h, if_false, lt_min_iff, hlt, true_and]
    omega

theorem page_invalidate (c : CodeCache) (start stop : UInt64) (p : Nat) :
    (c.invalidate start stop).2.page p =
      if p < c.pageCount ∧ Overlaps c.pageShift start stop p then c.emptyPage else c.page p := by
  have hget : (c.invalidate start stop).2.pages[p]? =
      if (c.pageRange start stop).1 ≤ p ∧ p < (c.pageRange start stop).2 then none
      else c.pages[p]? := by
    simp only [invalidate, Std.HashMap.getElem?_filter, Std.HashMap.getKey_eq]
    cases c.pages[p]? with
    | none => simp
    | some page =>
      by_cases h : (c.pageRange start stop).1 ≤ p ∧ p < (c.pageRange start stop).2
      · simp [h]
      · simp only [if_neg h]
        simp only [not_and, not_lt] at h
        by_cases hfirst : (c.pageRange start stop).1 ≤ p
        · simp [h hfirst]
        · simp [lt_of_not_ge hfirst]
  unfold CodeCache.page
  simp only [hget, mem_pageRange]
  split_ifs <;> rfl

theorem fst_invalidate (c : CodeCache) (start stop : UInt64) :
    (c.invalidate start stop).1 =
      {p | p < c.pageCount ∧ Overlaps c.pageShift start stop p}.ncard := by
  have hset : {p | p < c.pageCount ∧ Overlaps c.pageShift start stop p} =
      ↑(Finset.Ico (c.pageRange start stop).1 (c.pageRange start stop).2) := by
    ext p
    rw [Finset.coe_Ico, Set.mem_Ico]
    exact mem_pageRange.symm
  rw [hset, Set.ncard_coe_finset, Nat.card_Ico]
  rfl

theorem find?_empty (n : Nat) (addr : UInt64) : (EntryTable.empty n).find? addr = none := by
  rw [← Option.not_isSome_iff_eq_none, (EntryTable.sound_empty n).find?_isSome]
  rintro ⟨i, s, hs, -⟩
  exact not_uses_empty hs

theorem Sound.invalidate (h : c.Sound) (start stop : UInt64) : (c.invalidate start stop).2.Sound := by
  refine sound_of_page fun p => ?_
  rw [page_invalidate]
  split_ifs
  · exact Or.inl rfl
  · exact Or.inr ⟨h.table p, h.size p, h.home⟩

theorem find?_invalidate (c : CodeCache) (start stop x : UInt64) :
    (c.invalidate start stop).2.find? x =
      if Overlaps c.pageShift start stop (x.toNat >>> c.pageShift) then none else c.find? x := by
  have hpage? : (c.invalidate start stop).2.page? x = c.page? x := rfl
  unfold find?
  rw [hpage?]
  cases hp : c.page? x with
  | none => simp
  | some p =>
    obtain ⟨rfl, hlt⟩ := page?_eq_some.mp hp
    simp only [Option.bind_some, page_invalidate, hlt, true_and]
    split_ifs
    · exact find?_empty c.mapSize x
    · rfl

def addresses (c : CodeCache) : List UInt64 :=
  c.pages.toList.flatMap fun kv => kv.2.table.addresses

theorem length_addresses (c : CodeCache) : c.addresses.length = c.entries := by
  have hsum : ∀ (l : List (Nat × Page)) (n : Nat),
      l.foldl (fun n kv => n + kv.2.table.count) n =
        n + (l.flatMap fun kv => kv.2.table.addresses).length := by
    intro l
    induction l with
    | nil => simp
    | cons kv l ih =>
      intro n
      rw [List.foldl_cons, ih, List.flatMap_cons, List.length_append, EntryTable.length_addresses]
      omega
  rw [addresses, entries, Std.HashMap.fold_eq_foldl_toList, hsum, Nat.zero_add]

theorem page_of_mem (h : kv ∈ c.pages.toList) : c.page kv.1 = kv.2 := by
  have hget := Std.HashMap.mem_toList_iff_getElem?_eq_some.mp h
  simp [CodeCache.page, hget]

theorem Sound.page?_of_mem (h : c.Sound) (hkv : kv ∈ c.pages.toList)
    (hx : addr ∈ kv.2.table.addresses) : c.page? addr = some kv.1 := by
  rw [← page_of_mem hkv] at hx
  obtain ⟨i, s, hs, rfl⟩ := (h.table _).find?_isSome.mp ((h.table _).mem_addresses.mp hx)
  exact h.home hs

theorem Sound.mem_addresses (h : c.Sound) : addr ∈ c.addresses ↔ (c.find? addr).isSome = true := by
  rw [addresses, List.mem_flatMap]
  constructor
  · rintro ⟨kv, hkv, hx⟩
    rw [find?_of_page? (h.page?_of_mem hkv hx), page_of_mem hkv]
    have htable := h.table kv.1
    rw [page_of_mem hkv] at htable
    exact htable.mem_addresses.mp hx
  · intro hsome
    cases hp : c.page? addr with
    | none => simp [find?, hp] at hsome
    | some p =>
      rw [find?_of_page? hp] at hsome
      cases hget : c.pages[p]? with
      | none => simp [CodeCache.page, hget, emptyPage_table, find?_empty] at hsome
      | some page =>
        have hmem : (p, page) ∈ c.pages.toList :=
          Std.HashMap.mem_toList_iff_getElem?_eq_some.mpr hget
        have htable := h.table p
        rw [page_of_mem hmem] at htable hsome
        exact ⟨(p, page), hmem, htable.mem_addresses.mpr hsome⟩

theorem Sound.nodup_addresses (h : c.Sound) : c.addresses.Nodup := by
  rw [addresses, List.nodup_flatMap]
  refine ⟨fun kv hkv => ?_, ?_⟩
  · have htable := h.table kv.1
    rw [page_of_mem hkv] at htable
    exact htable.nodup_addresses
  · refine Std.HashMap.distinct_keys_toList.imp_of_mem ?_
    intro kv kv' hkv hkv' hne x hx hx'
    have heq := (h.page?_of_mem hkv hx).symm.trans (h.page?_of_mem hkv' hx')
    simp [Option.some.inj heq] at hne

theorem ncard_eq_length {s : Set UInt64} {l : List UInt64} (hl : l.Nodup) (h : ∀ a, a ∈ l ↔ a ∈ s) :
    s.ncard = l.length := by
  have hs : s = ↑l.toFinset := by
    ext a
    rw [List.coe_toFinset, Set.mem_ofPred_eq, h]
  rw [hs, Set.ncard_coe_finset, List.toFinset_card_of_nodup hl]

/-- The number of entry points is the number of addresses that have one. -/
theorem Sound.entries_eq (h : c.Sound) : c.entries = {a | (c.find? a).isSome = true}.ncard := by
  rw [← length_addresses, ncard_eq_length h.nodup_addresses]
  exact fun a => h.mem_addresses

theorem Sound.count_eq (h : c.Sound) (hp : p < c.pageCount) : (c.page p).table.count =
    {a : UInt64 | a.toNat >>> c.pageShift = p ∧ (c.find? a).isSome = true}.ncard := by
  rw [ncard_eq_length (h.table p).nodup_addresses, EntryTable.length_addresses]
  intro a
  rw [(h.table p).mem_addresses]
  constructor
  · intro hsome
    obtain ⟨i, s, hs, rfl⟩ := (h.table p).find?_isSome.mp hsome
    have hpage := h.home hs
    exact ⟨(page?_eq_some.mp hpage).1, by rwa [find?_of_page? hpage]⟩
  · rintro ⟨rfl, hsome⟩
    rwa [find?_of_page? (page?_eq_some.mpr ⟨rfl, hp⟩)] at hsome

theorem isPageSize_eq_true {n : Int} (h : isPageSize n = true) :
    ∃ shift : Nat, n = 2 ^ shift ∧ n.toNat.log2 = shift := by
  simp only [isPageSize, Bool.and_eq_true, beq_iff_eq] at h
  obtain ⟨hmin, hpower⟩ := h
  have hpos : (4096 : Int) ≤ n := of_decide_eq_true hmin
  obtain ⟨shift, hshift⟩ :=
    (Nat.and_sub_one_eq_zero_iff_isPowerOfTwo (n := n.toNat) (by omega)).mp hpower
  refine ⟨shift, ?_, by rw [hshift, Nat.log2_two_pow]⟩
  have hnat : n = (n.toNat : Int) := by omega
  rw [hnat, hshift]
  norm_num

theorem wordProduct_eq {a b : Int} (ha : 0 < a) (hb : 0 < b) (h : a * b < 2 ^ 63) :
    wordProduct a b = a * b := by
  have hpos : 0 < a * b := Int.mul_pos ha hb
  have hword : (1 <<< 64 : Nat) = 2 ^ 64 := Nat.one_shiftLeft 64
  rw [wordProduct, Host.signedWord, hword]
  exact Int.bmod_eq_of_le (by omega) (by omega)

theorem create_eq_ok {pageSize pageCount bufferSize mapSize : Int}
    (h : create pageSize pageCount bufferSize mapSize = .ok c) :
    isPageSize pageSize = true ∧ 0 < pageCount ∧ 0 < bufferSize ∧ 0 < mapSize ∧
      pageCount * bufferSize ≤ maxRegion ∧
      c = { pageShift := pageSize.toNat.log2, pageCount := pageCount.toNat,
            bufferSize := bufferSize.toNat, mapSize := mapSize.toNat,
            slots := (wordProduct pageCount mapSize).toNat } := by
  unfold create at h
  simp only at h
  split_ifs at h with hsize hpos hregion hlarge hroom
  simp only [Except.ok.injEq] at h
  simp only [not_or, not_lt, not_le, ne_eq, not_not] at hpos hlarge hroom
  refine ⟨by simpa using hsize, hpos.1, hpos.2.1, hpos.2.2, ?_, h.symm⟩
  rw [← hroom.2.2]
  exact hlarge

theorem page_of_pages_eq_empty (h : c.pages = {}) (p : Nat) : c.page p = c.emptyPage := by
  simp [CodeCache.page, h]

theorem sound_of_pages_eq_empty (h : c.pages = {}) : c.Sound :=
  sound_of_page fun p => Or.inl (page_of_pages_eq_empty h p)

/-- What happened to a cache. -/
inductive Event where
  | stored (addr entry : UInt64)
  | cleared (start stop : UInt64)
deriving DecidableEq

/-- The entry point for an address by what happened, the latest event first. -/
def latest (shift : Nat) (addr : UInt64) : List Event → Option UInt64
  | [] => none
  | .stored a entry :: past => if a = addr then some entry else latest shift addr past
  | .cleared start stop :: past =>
      if Overlaps shift start stop (addr.toNat >>> shift) then none else latest shift addr past

/-- Calls on the cache `c₀`, what happened by them, and the cache they leave. A store that fails is no
event. -/
inductive History (c₀ : CodeCache) : List Event → CodeCache → Prop
  | start : History c₀ [] c₀
  | stored {past : List Event} {c c' : CodeCache} {addr entry : UInt64} (h : History c₀ past c)
      (hup : c.update addr entry = .ok c') : History c₀ (.stored addr entry :: past) c'
  | refused {past c addr entry f} (h : History c₀ past c) (hup : c.update addr entry = .error f) :
      History c₀ past c
  | cleared {past : List Event} {c : CodeCache} (h : History c₀ past c) (start stop : UInt64) :
      History c₀ (.cleared start stop :: past) (c.invalidate start stop).2

theorem History.shape (h : History c₀ past c) : ∃ pages, c = { c₀ with pages } := by
  induction h with
  | start => exact ⟨_, rfl⟩
  | stored _ hup ih =>
    obtain ⟨pages, rfl⟩ := ih
    obtain ⟨p, table, -, -, rfl⟩ := update_eq_ok hup
    exact ⟨_, rfl⟩
  | refused _ _ ih => exact ih
  | cleared _ start stop ih =>
    obtain ⟨pages, rfl⟩ := ih
    exact ⟨_, rfl⟩

theorem History.sound (h₀ : c₀.Sound) (h : History c₀ past c) : c.Sound := by
  induction h with
  | start => exact h₀
  | stored _ hup ih => exact ih.update hup
  | refused _ _ ih => exact ih
  | cleared _ start stop ih => exact ih.invalidate start stop

/-- The cache has what was stored last. -/
theorem History.find?_eq (h₀ : c₀.pages = {}) (h : History c₀ past c) (x : UInt64) :
    c.find? x = latest c₀.pageShift x past := by
  induction h with
  | start =>
    unfold find?
    cases hp : c₀.page? x with
    | none => rfl
    | some p =>
      rw [Option.bind_some, page_of_pages_eq_empty h₀, emptyPage_table]
      exact find?_empty c₀.mapSize x
  | stored h hup ih =>
    rw [(h.sound (sound_of_pages_eq_empty h₀)).find?_update hup, latest, ih]
  | refused _ _ ih => exact ih
  | @cleared past c h start stop ih =>
    obtain ⟨pages, rfl⟩ := h.shape
    rw [find?_invalidate, latest, ih]

/-- The cache is the bounded map of what happened to it. -/
structure Refines (shift pageCount mapSize : Nat) (past : List Event) (c : CodeCache) : Prop where
  entry : ∀ a, c.entry a = (latest shift a past).getD 0
  buffer : ∀ a, c.buffer? a =
    if a.toNat >>> shift < pageCount then some (c.page (a.toNat >>> shift)).buffer else none
  /-- A store succeeds, or fails for one of two reasons. -/
  update : ∀ a e, (∃ c', c.update a e = .ok c') ∨ ∃ err, c.update a e = .error (.error err) ∧
    (err.fault = .addressOutOfRange ∨ err.fault = .mapFull)
  outOfRange : ∀ a e, (∃ err, c.update a e = .error (.error err) ∧ err.fault = .addressOutOfRange) ↔
    pageCount ≤ a.toNat >>> shift
  full : ∀ a e, (∃ err, c.update a e = .error (.error err) ∧ err.fault = .mapFull) ↔
    a.toNat >>> shift < pageCount ∧ latest shift a past = none ∧
      {b : UInt64 | b.toNat >>> shift = a.toNat >>> shift ∧
        (latest shift b past).isSome = true}.ncard = mapSize
  /-- Clearing a range empties the pages that overlap it, and counts them. -/
  cleared : ∀ s t p, p < pageCount → Overlaps shift s t p →
    ((c.invalidate s t).2.page p).table = EntryTable.empty mapSize ∧
      ((c.invalidate s t).2.page p).buffer.offset = 0
  kept : ∀ s t p, ¬ Overlaps shift s t p → (c.invalidate s t).2.page p = c.page p
  count : ∀ s t, (c.invalidate s t).1 = {p | p < pageCount ∧ Overlaps shift s t p}.ncard
  entries : c.entries = {a | (latest shift a past).isSome = true}.ncard

/-- The outcome of a store in a cache whose tables are all there. -/
theorem Sound.update_cases (h : c.Sound) (hroom : ∀ p < c.pageCount, c.hasTable p = true)
    (addr entry : UInt64) :
    (∃ c', c.update addr entry = .ok c' ∧ ∃ p, c.page? addr = some p ∧
      ¬ ((c.page p).table.find? addr = none ∧ (c.page p).table.count = c.mapSize)) ∨
    (c.update addr entry = .error (.error (.outOfRange addr)) ∧ c.page? addr = none) ∨
    ∃ p, c.update addr entry = .error (.error (.full p addr)) ∧ c.page? addr = some p ∧
      (c.page p).table.find? addr = none ∧ (c.page p).table.count = c.mapSize := by
  unfold CodeCache.update
  cases hp : c.page? addr with
  | none => exact Or.inr (Or.inl ⟨rfl, rfl⟩)
  | some p =>
    have hins : (c.page p).table.insert? addr entry = none ↔
        (c.page p).table.find? addr = none ∧ (c.page p).table.count = c.mapSize := by
      rw [(h.table p).insert?_eq_none, h.size p]
    simp only [hroom p (page?_eq_some.mp hp).2, Bool.not_true, Bool.false_eq_true, if_false]
    cases hcase : (c.page p).table.insert? addr entry with
    | none => exact Or.inr (Or.inr ⟨p, rfl, rfl, hins.mp hcase⟩)
    | some table => exact Or.inl ⟨_, rfl, p, rfl, fun hfull => by simp [hins.mpr hfull] at hcase⟩

theorem Sound.refines (h : c.Sound) (hroom : ∀ p < c.pageCount, c.hasTable p = true)
    (hfind : ∀ x, c.find? x = latest c.pageShift x past) :
    Refines c.pageShift c.pageCount c.mapSize past c := by
  have hcases := h.update_cases hroom
  refine ⟨fun a => ?_, fun a => ?_, fun a e => ?_, fun a e => ?_, fun a e => ?_, ?_, ?_,
    c.fst_invalidate, ?_⟩
  · have hreach : c.canReach a = true := by
      rw [canReach, Option.all_eq_true]
      exact fun p hp => hroom p (page?_eq_some.mp hp).2
    rw [entry_eq_find?, hfind, hreach, if_pos rfl]
  · unfold buffer? page?
    simp only
    split_ifs <;> rfl
  · rcases hcases a e with ⟨c', hup, -⟩ | ⟨hup, -⟩ | ⟨p, hup, -⟩
    · exact Or.inl ⟨c', hup⟩
    · exact Or.inr ⟨_, hup, Or.inl rfl⟩
    · exact Or.inr ⟨_, hup, Or.inr rfl⟩
  · rw [← page?_eq_none]
    rcases hcases a e with ⟨c', hup, p, hp, -⟩ | ⟨hup, hp⟩ | ⟨p, hup, hp, -⟩
    · simp [hup, hp]
    · simp [hup, hp, CacheError.fault]
    · simp [hup, hp, CacheError.fault]
  · -- the count of the table is the number of addresses of the page
    have hpage (p : Nat) (hp : c.page? a = some p) :
        (a.toNat >>> c.pageShift < c.pageCount ∧ latest c.pageShift a past = none ∧
          {b : UInt64 | b.toNat >>> c.pageShift = a.toNat >>> c.pageShift ∧
            (latest c.pageShift b past).isSome = true}.ncard = c.mapSize) ↔
        (c.page p).table.find? a = none ∧ (c.page p).table.count = c.mapSize := by
      obtain ⟨rfl, hlt⟩ := page?_eq_some.mp hp
      rw [h.count_eq hlt, ← find?_of_page? hp]
      simp only [hfind, hlt, true_and]
    rcases hcases a e with ⟨c', hup, p, hp, hfree⟩ | ⟨hup, hp⟩ | ⟨p, hup, hp, hfull⟩
    · rw [hpage p hp]
      simp only [hup, reduceCtorEq, false_and, exists_false, false_iff]
      exact hfree
    · have hout := page?_eq_none.mp hp
      simp [hup, CacheError.fault, hout]
    · rw [hpage p hp]
      exact iff_of_true ⟨_, hup, rfl⟩ hfull
  · intro s t p hp hover
    rw [page_invalidate, if_pos ⟨hp, hover⟩]
    exact ⟨rfl, rfl⟩
  · intro s t p hover
    rw [page_invalidate, if_neg fun hboth => hover hboth.2]
  · rw [h.entries_eq]
    simp only [hfind]

/-- All calls on a new cache agree with the bounded map of what they did, as long as the number of slots
of all its tables is a signed machine word. -/
theorem refines_latest {pageSize pageCount bufferSize mapSize : Int} {c₀ : CodeCache}
    (hnew : create pageSize pageCount bufferSize mapSize = .ok c₀)
    (hslots : pageCount * mapSize < 2 ^ 63) :
    ∃ shift : Nat, pageSize = 2 ^ shift ∧ ∀ past c, History c₀ past c →
      Refines shift pageCount.toNat mapSize.toNat past c := by
  obtain ⟨hsize, hcount, -, hmap, -, rfl⟩ := create_eq_ok hnew
  obtain ⟨shift, rfl, hshift⟩ := isPageSize_eq_true hsize
  refine ⟨shift, rfl, fun past c h => ?_⟩
  have hsound : c.Sound := h.sound (sound_of_pages_eq_empty rfl)
  have hfind := h.find?_eq rfl
  obtain ⟨pages, rfl⟩ := h.shape
  simp only [hshift] at hsound hfind ⊢
  refine hsound.refines ?_ hfind
  -- the tables of all pages lie in the slots
  intro p hp
  have hslots' : (pageCount * mapSize).toNat = pageCount.toNat * mapSize.toNat :=
    Int.toNat_mul hcount.le hmap.le
  simp only [hasTable, wordProduct_eq hcount hmap hslots, hslots', decide_eq_true_eq]
  exact Nat.mul_le_mul_right _ hp

/-- A cache of two pages with one slot each: the second address of a page finds it full. -/
theorem refines_latest_twoPages :
    ∃ c₀ c₁, create 4096 2 64 1 = .ok c₀ ∧ (2 : Int) * 1 < 2 ^ 63 ∧ c₀.update 0x1008 7 = .ok c₁ ∧
      (∃ err, c₁.update 0x1000 8 = .error (.error err) ∧ err.fault = .mapFull) ∧
      c₁.entry 0x1008 = 7 ∧ c₁.entries = 1 := by
  obtain ⟨c₀, hnew⟩ : ∃ c₀, create 4096 2 64 1 = .ok c₀ := ⟨_, rfl⟩
  obtain ⟨shift, hshift, hrefines⟩ := refines_latest hnew (by norm_num)
  have hpow : 2 ^ shift = 2 ^ 12 := by
    have : ((2 ^ shift : Nat) : Int) = (2 ^ 12 : Nat) := by
      push_cast
      exact hshift.symm
    exact_mod_cast this
  obtain rfl : shift = 12 := Nat.pow_right_injective le_rfl hpow
  have hfirst := hrefines [] c₀ .start
  have hstored : ∃ c₁, c₀.update 0x1008 7 = .ok c₁ := by
    refine (hfirst.update 0x1008 7).resolve_right ?_
    rintro ⟨err, hup, hfault | hfault⟩
    · exact absurd ((hfirst.outOfRange _ _).mp ⟨err, hup, hfault⟩) (by decide)
    · have hfull := ((hfirst.full _ _).mp ⟨err, hup, hfault⟩).2.2
      simp [latest] at hfull
  obtain ⟨c₁, hc₁⟩ := hstored
  have hsecond := hrefines _ c₁ (.stored .start hc₁)
  have hlatest : ∀ a, (latest 12 a [.stored 0x1008 7]).isSome = true ↔ a = 0x1008 := by
    intro a
    rw [latest, latest]
    split_ifs with ha
    · simp [ha]
    · simp [Ne.symm ha]
  refine ⟨c₀, c₁, hnew, by norm_num, hc₁, (hsecond.full _ _).mpr ⟨by decide, by decide, ?_⟩,
    hsecond.entry _, ?_⟩
  · rw [show {b : UInt64 | b.toNat >>> 12 = (0x1000 : UInt64).toNat >>> 12 ∧
        (latest 12 b [.stored 0x1008 7]).isSome = true} = {0x1008} by
      ext b
      simp only [hlatest, Set.mem_ofPred_eq, Set.mem_singleton_iff, and_iff_right_iff_imp]
      rintro rfl
      decide]
    exact Set.ncard_singleton _
  · rw [hsecond.entries]
    simp only [hlatest]
    exact Set.ncard_singleton _

/-- A product of page count and table size that wraps leaves no slots, and a store aborts. -/
theorem update_wrapped_slots :
    ∃ c, create 4096 4 4096 0x4000000000000000 = .ok c ∧ c.update 0 1 = .error (.abort none) := by
  refine ⟨⟨12, 4, 4096, 0x4000000000000000, 0, {}, true⟩, by rfl, ?_⟩
  simp [update, page?, hasTable]

end Dynarec.CodeCache
