import Dynarec.Proofs.Engine.Coherence

/-!
# The lifetime of an engine

Besides the calls of a history, an engine can be asked to run native code and to give its cache back.
What holds of a new engine and is kept by every request holds as long as the engine lives: it has its
settings, its cache is closed or holds the code that was stored, and there is no code before a guest is
bound. Binding another guest empties the pages from the first one up to the size of all pages as a
machine word, so code of the guest before it is left only if that size is no machine word.
-/
namespace Dynarec.Engine

open CodeCache

variable {c₀ c : CodeCache}

/-- What an engine can be asked for. -/
inductive Request where
  | call (c : Call)
  | execute (addr : UInt64) (code : List UInt8)
  | close

def serve (e : Engine) : Request → Engine
  | .call c => e.after c
  | .execute addr code => (e.execute addr code).2
  | .close => e.close

def serveAll (e : Engine) (rs : List Request) : Engine :=
  rs.foldl serve e

variable {s : Settings} {e e₀ e' : Engine} {a : UInt64}

theorem execute_snd (e : Engine) (addr : UInt64) (code : List UInt8) :
    ∃ calls, (calls = [] ∨ calls = [.lookup addr] ∨ calls = [.lookup addr, .compile addr code]) ∧
      ∃ n spans, (e.execute addr code).2 =
        { calls.foldl after e with stats.executions := n, spans } := by
  unfold execute
  by_cases hreach : e.cache.canReach (e.key addr) = true
  · by_cases hentry : (e.lookup addr).1 = 0
    · refine ⟨[.lookup addr, .compile addr code], Or.inr (Or.inr rfl), ?_⟩
      simp only [hreach, if_true, hentry, Bool.not_true, Bool.false_eq_true, if_false,
        List.foldl_cons, List.foldl_nil, after]
      rcases hcompile : (e.lookup addr).2.compile addr code with ⟨f | entry, e'⟩
      · exact ⟨_, _, rfl⟩
      · simp only
        split <;> exact ⟨_, _, rfl⟩
    · refine ⟨[.lookup addr], Or.inr (Or.inl rfl), ?_⟩
      simp only [hreach, if_true, hentry, Bool.not_true, Bool.false_eq_true, if_false,
        List.foldl_cons, List.foldl_nil, after]
      split <;> exact ⟨_, _, rfl⟩
  · refine ⟨[], Or.inl rfl, ?_⟩
    simp only [hreach, Bool.false_eq_true, if_false, Bool.not_false, if_true]
    exact ⟨_, _, rfl⟩

/-- What holds of an engine with the cache `c₀` at first, as long as it lives. -/
structure Lives (s : Settings) (c₀ : CodeCache) (e : Engine) : Prop where
  settings : e.settings = s
  cache : e.cache.pageCount = 0 ∨ SameShape c₀ e.cache ∧ ∃ ledger, e.cache.Holds ledger
  idle : e.bound = none → ∀ p, e.cache.page p = e.cache.emptyPage

theorem lives_create (h : create s = .ok e) : Lives s e.cache e := by
  obtain ⟨hcache, hsettings, -⟩ := create_eq_ok h
  have hpages : e.cache.pages = {} := by
    rw [(CodeCache.create_eq_ok hcache).2.2.2.2.2]
  exact ⟨hsettings, Or.inr ⟨.refl _, [], holds_create h⟩,
    fun _ p => page_of_pages_eq_empty hpages p⟩

theorem locate_of_bound_eq_none (h : e.bound = none) (addr : UInt64) :
    e.locate addr = .error .noState := by
  rw [locate, h]

/-- Without a guest no call fills a page. -/
theorem idle_after (hidle : e.bound = none → ∀ p, e.cache.page p = e.cache.emptyPage) (call : Call)
    (h : (e.after call).bound = none) (p : Nat) :
    (e.after call).cache.page p = (e.after call).cache.emptyPage := by
  have hbound : e.bound = none := by
    by_cases hcall : ∃ s, call = .bind s
    · obtain ⟨s, rfl⟩ := hcall
      rw [after] at h
      cases hbind : e.bind s with
      | error err => rwa [hbind] at h
      | ok e' =>
        rw [hbind] at h
        obtain ⟨space, -, ⟨-, rfl⟩ | ⟨-, rfl⟩⟩ := bind_eq_ok hbind <;> cases h
    · rwa [(e.bound_after (not_exists.mp hcall)).2] at h
  have hempty := hidle hbound p
  rcases e.after_cases call with ⟨hcache, -⟩ | ⟨-, -, start, stop, hcache⟩ |
    ⟨addr, code, -, key, g, space, hkey, -⟩
  · rw [hcache]
    exact hempty
  · rw [hcache, page_invalidate]
    split_ifs
    · rfl
    · exact hempty
  · rw [locate_of_bound_eq_none hbound] at hkey
    cases hkey

theorem Lives.after (h : Lives s c₀ e) (call : Call) : Lives s c₀ (e.after call) := by
  refine ⟨(e.settings_after call).trans h.settings, ?_, idle_after h.idle call⟩
  have hshape := e.sameShape_after call
  rcases h.cache with hclosed | ⟨hsame, ledger, hholds⟩
  · obtain ⟨pages, hpages⟩ := hshape
    exact Or.inl (by rw [hpages]; exact hclosed)
  · exact Or.inr ⟨hsame.trans hshape, _, holds_after hholds call⟩

theorem Lives.foldl_after (h : Lives s c₀ e) (calls : List Call)
    : Lives s c₀ (calls.foldl Engine.after e) := by
  induction calls generalizing e with
  | nil => exact h
  | cons call calls ih => exact ih (h.after call)

theorem Lives.serve (h : Lives s c₀ e) (r : Request) : Lives s c₀ (e.serve r) := by
  cases r with
  | call c => exact h.after c
  | execute addr code =>
    obtain ⟨calls, -, n, spans, hexecute⟩ := e.execute_snd addr code
    have hlives := h.foldl_after calls
    rw [Engine.serve, hexecute]
    exact ⟨hlives.settings, hlives.cache, hlives.idle⟩
  | close => exact ⟨h.settings, Or.inl rfl, h.idle⟩

theorem Lives.serveAll (h : Lives s c₀ e) (rs : List Request) : Lives s c₀ (e.serveAll rs) := by
  unfold Engine.serveAll
  induction rs generalizing e with
  | nil => exact h
  | cons r rs ih => exact ih (h.serve r)

/-! ## Another guest -/

theorem entry_of_pageCount_eq_zero (h : c.pageCount = 0) (x : UInt64) : c.entry x = 0 := by
  have hp : c.page? x = none := page?_eq_none.mpr (h ▸ Nat.zero_le _)
  rw [entry, hp]

theorem entry_of_page_eq_emptyPage (h : ∀ p, c.page p = c.emptyPage) (x : UInt64)
    : c.entry x = 0 := by
  unfold entry
  cases c.page? x with
  | none => rfl
  | some p => simp [h, emptyPage_table, find?_empty]

/-- A range that starts at zero and ends at the end of a page overlaps the pages of its addresses
only. -/
theorem overlaps_zero {shift n : Nat} {stop : UInt64} (hstop : stop.toNat = n * 2 ^ shift) (x : UInt64) :
    Overlaps shift 0 stop (x.toNat >>> shift) ↔ x.toNat < stop.toNat := by
  have hpos : 0 < 2 ^ shift := Nat.two_pow_pos shift
  constructor
  · rintro ⟨b, -, hlt, hpage⟩
    rw [UInt64.lt_iff_toNat_lt, hstop, ← Nat.div_lt_iff_lt_mul hpos, ← Nat.shiftRight_eq_div_pow, hpage,
      Nat.shiftRight_eq_div_pow, Nat.div_lt_iff_lt_mul hpos] at hlt
    rwa [hstop]
  · intro hlt
    exact ⟨x, UInt64.le_iff_toNat_le.mpr (Nat.zero_le _), UInt64.lt_iff_toNat_lt.mpr hlt, rfl⟩

theorem toNat_allPages (c : CodeCache) :
    (c.pageSize.toUInt64 * c.pageCount.toUInt64).toNat = c.pageSize * c.pageCount % 2 ^ 64 ∧
      ∃ n, c.pageSize * c.pageCount % 2 ^ 64 = n * 2 ^ c.pageShift := by
  constructor
  · rw [UInt64.toNat_mul, UInt64.toNat_ofNat', UInt64.toNat_ofNat', ← Nat.mul_mod]
  · rw [CodeCache.pageSize, Nat.one_shiftLeft]
    rcases le_total c.pageShift 64 with hle | hle
    · obtain ⟨n, hn⟩ := (Nat.dvd_mod_iff (pow_dvd_pow 2 hle)).mpr
        (Nat.dvd_mul_right (2 ^ c.pageShift) c.pageCount)
      exact ⟨n, by rw [hn, Nat.mul_comm]⟩
    · exact ⟨0, by rw [Nat.zero_mul,
        Nat.mod_eq_zero_of_dvd ((pow_dvd_pow 2 hle).trans (Nat.dvd_mul_right _ _))]⟩

theorem lt_allPages {x : UInt64} (h : c.entry x ≠ 0) : x.toNat < c.pageSize * c.pageCount := by
  unfold entry at h
  cases hp : c.page? x with
  | none => simp [hp] at h
  | some p =>
    obtain ⟨rfl, hlt⟩ := page?_eq_some.mp hp
    rw [Nat.shiftRight_eq_div_pow, Nat.div_lt_iff_lt_mul (Nat.two_pow_pos _)] at hlt
    rwa [CodeCache.pageSize, Nat.one_shiftLeft, Nat.mul_comm]

/-- What is found after another guest was bound: what was found before, unless its key lies below the
size of all pages as a machine word. -/
theorem lookup_of_bind_ok (h : Lives s c₀ e) {guest : Guest.State} (hother : e.bound ≠ some guest)
    (hbind : e.bind guest = .ok e') (a : UInt64) :
    (e'.lookup a).1 = 0 ↔ (e.lookup a).1 = 0 ∨
      (e.key a).toNat < c₀.pageSize * c₀.pageCount % 2 ^ 64 := by
  obtain ⟨space, -, ⟨hbound, rfl⟩ | ⟨-, rfl⟩⟩ := bind_eq_ok hbind
  · -- no guest was bound, so there is no code
    have hnone := hbound.resolve_right hother
    have hzero : e.cache.entry (e.key a) = 0 := entry_of_page_eq_emptyPage (h.idle hnone) _
    exact iff_of_true hzero (Or.inl hzero)
  · rcases h.cache with hclosed | ⟨⟨pages, hshape⟩, -⟩
    · have hzero : e.cache.entry (e.key a) = 0 := entry_of_pageCount_eq_zero hclosed _
      refine iff_of_true ?_ (Or.inl hzero)
      exact entry_of_pageCount_eq_zero (c := (e.cache.invalidate _ _).2) hclosed _
    · obtain ⟨hword, n, hn⟩ := toNat_allPages e.cache
      have hsize : c₀.pageSize * c₀.pageCount = e.cache.pageSize * e.cache.pageCount := by
        rw [hshape]
        rfl
      rw [hsize, ← hword, ← overlaps_zero (hword.trans hn)]
      change (e.cache.invalidate 0 _).2.entry (e.key a) = 0 ↔ e.cache.entry (e.key a) = 0 ∨ _
      rw [entry_invalidate]
      split_ifs with hover
      · simp [hover]
      · simp [hover]

/-- The tables of all pages are there if the number of their slots is a signed machine word. -/
theorem Lives.canReach (h : Lives s c₀ e) (hnew : CodeCache.create s.cache.pageSize
    s.cache.pageCount s.cache.bufferSize s.cache.mapSize = .ok c₀)
    (hslots : s.cache.pageCount * s.cache.mapSize < 2 ^ 63) (x : UInt64)
    : e.cache.canReach x = true := by
  rw [CodeCache.canReach, Option.all_eq_true]
  intro p hp
  have hlt := (page?_eq_some.mp hp).2
  rcases h.cache with hclosed | ⟨⟨pages, hshape⟩, -⟩
  · omega
  · obtain ⟨-, hcount, -, hmap, -, rfl⟩ := CodeCache.create_eq_ok hnew
    rw [hshape] at hlt ⊢
    rw [hasTable, wordProduct_eq hcount hmap hslots,
      Int.toNat_mul hcount.le hmap.le, decide_eq_true_eq]
    exact Nat.mul_le_mul_right _ hlt

/-- After another guest was bound, what is found is what was found before, unless its key lies below the
size of all pages as a machine word. So nothing is found if that size is a machine word. -/
theorem lookup_bind (h : create s = .ok e₀) (rs : List Request) {guest : Guest.State}
    (hother : (e₀.serveAll rs).bound ≠ some guest) (hbind : (e₀.serveAll rs).bind guest = .ok e')
    (a : UInt64) :
    ((e'.lookup a).1 = 0 ↔ ((e₀.serveAll rs).lookup a).1 = 0 ∨
      ((e₀.key a).toNat : Int) < s.cache.pageSize * s.cache.pageCount % 2 ^ 64) ∧
    (s.cache.pageSize * s.cache.pageCount < 2 ^ 64 → (e'.lookup a).1 = 0) ∧
    (s.cache.pageCount * s.cache.mapSize < 2 ^ 63 → e'.cache.canReach (e'.key a) = true) := by
  have hlives := (lives_create h).serveAll rs
  obtain ⟨hcache, hsettings, -⟩ := create_eq_ok h
  have hkey : (e₀.serveAll rs).key a = e₀.key a := by
    rw [key, key, hlives.settings, hsettings]
  have hsize : ((e₀.cache.pageSize * e₀.cache.pageCount : Nat) : Int) =
      s.cache.pageSize * s.cache.pageCount := by
    obtain ⟨hpage, hcount, -, -, -, hnew⟩ := CodeCache.create_eq_ok hcache
    obtain ⟨shift, hshift, hlog⟩ := CodeCache.isPageSize_eq_true hpage
    rw [hnew, CodeCache.pageSize, hlog, Nat.one_shiftLeft, hshift]
    push_cast
    rw [Int.toNat_of_nonneg hcount.le]
  have hiff := lookup_of_bind_ok hlives hother hbind a
  rw [hkey] at hiff
  refine ⟨?_, ?_, ?_⟩
  · rw [hiff, ← hsize]
    exact_mod_cast Iff.rfl
  · intro hword
    by_cases hfound : ((e₀.serveAll rs).lookup a).1 = 0
    · exact hiff.mpr (Or.inl hfound)
    · have hlt := lt_allPages hfound
      rw [hkey] at hlt
      refine hiff.mpr (Or.inr ?_)
      rcases hlives.cache with hclosed | ⟨⟨pages, hshape⟩, -⟩
      · exact absurd (entry_of_pageCount_eq_zero hclosed _) hfound
      · rw [hshape] at hlt
        rw [Nat.mod_eq_of_lt (by exact_mod_cast hsize ▸ hword)]
        exact hlt
  · intro hslots
    have hafter : (e₀.serveAll rs).after (.bind guest) = e' := by rw [after, hbind]
    exact (hafter ▸ hlives.after (.bind guest)).canReach hcache hslots _

def oneGuest : List Request :=
  [.call (.bind ⟨0⟩), .call (.compile 0 [0x03, 0xe0, 0, 8, 0, 0, 0, 0])]

/-- The guest that is bound, and what is found at address zero before and after another one is, if that
succeeds. -/
def foundAround (s : Settings) (guest : Guest.State) :
    Option (Option Guest.State × UInt64 × UInt64) :=
  match create s with
  | .ok e₀ =>
      match (e₀.serveAll oneGuest).bind guest with
      | .ok e' =>
          some ((e₀.serveAll oneGuest).bound, ((e₀.serveAll oneGuest).lookup 0).1, (e'.lookup 0).1)
      | .error _ => none
  | .error _ => none

theorem foundAround_eq_some {guest : Guest.State} {old : Option Guest.State} {x y : UInt64}
    (h : foundAround s guest = some (old, x, y)) : ∃ e₀ e', create s = .ok e₀ ∧
      (e₀.serveAll oneGuest).bound = old ∧ (e₀.serveAll oneGuest).bind guest = .ok e' ∧
      ((e₀.serveAll oneGuest).lookup 0).1 = x ∧ (e'.lookup 0).1 = y := by
  unfold foundAround at h
  split at h
  · rename_i e₀ hnew
    split at h
    · rename_i e' hbind
      simp only [Option.some.injEq, Prod.mk.injEq] at h
      exact ⟨e₀, e', hnew, h.1, hbind, h.2⟩
    · cases h
  · cases h

/-- With pages of the usual size and number nothing is left of the region. -/
theorem lookup_bind_default : ∃ e₀ e', create {} = .ok e₀ ∧
    (e₀.serveAll oneGuest).bound ≠ some ⟨0x1000⟩ ∧
    (e₀.serveAll oneGuest).bind ⟨0x1000⟩ = .ok e' ∧ ((e₀.serveAll oneGuest).lookup 0).1 ≠ 0 ∧
    (e'.lookup 0).1 = 0 := by
  have hrun : foundAround {} ⟨0x1000⟩ = some (some ⟨0⟩, CodeCache.regionBase, 0) := by
    decide +kernel
  obtain ⟨e₀, e', hnew, hbound, hbind, hbefore, -⟩ := foundAround_eq_some hrun
  have hother : (e₀.serveAll oneGuest).bound ≠ some ⟨0x1000⟩ := by
    rw [hbound]
    decide
  have hafter := (lookup_bind hnew oneGuest hother hbind 0).2.1 (by decide)
  exact ⟨e₀, e', hnew, hother, hbind, hbefore ▸ by decide, hafter⟩

/-- Four pages of `2 ^ 62` bytes: their size is no machine word, no page is emptied, and the code of the
first guest is found for the second. -/
theorem lookup_bind_wrapped_size : ∃ e₀ e',
    create { cache := { pageSize := 0x4000000000000000, pageCount := 4 } } = .ok e₀ ∧
    (e₀.serveAll oneGuest).bound ≠ some ⟨0x1000⟩ ∧
    (e₀.serveAll oneGuest).bind ⟨0x1000⟩ = .ok e' ∧ (e'.lookup 0).1 ≠ 0 := by
  have hrun : foundAround { cache := { pageSize := 0x4000000000000000, pageCount := 4 } } ⟨0x1000⟩ =
      some (some ⟨0⟩, CodeCache.regionBase, CodeCache.regionBase) := by decide +kernel
  obtain ⟨e₀, e', hnew, hbound, hbind, -, hafter⟩ := foundAround_eq_some hrun
  exact ⟨e₀, e', hnew, hbound ▸ by decide, hbind, hafter ▸ by decide⟩

end Dynarec.Engine
