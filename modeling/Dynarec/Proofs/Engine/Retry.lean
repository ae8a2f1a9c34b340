import Dynarec.Proofs.Engine.Lifetime
import Dynarec.Proofs.Guest.TypeSoundness

/-!
# One emptied page is enough

A region that could be assembled in an empty buffer gets its code, however full its page is: if the
buffer or the table has no room left, the page is emptied and the second attempt meets an empty
buffer and an empty table. A region that could not is refused for the reason that assembly in an
empty buffer gives. New code stays where it is found until the page is emptied, the region is
explained anew, or the guest or the cache is changed.
-/
namespace Dynarec

open Machine (CodeBuffer)
open CodeCache

variable {key entry : UInt64} {c c' : CodeCache} {b : CodeBuffer} {e' e₀ : Engine} {span : Span}
  {s : Settings}

namespace EntryTable

theorem count_empty (n : Nat) : (empty n).count = 0 := by
  simp [count, empty, List.countP_replicate]

theorem insert?_empty {n : Nat} (hn : 0 < n) (addr entry : UInt64) :
    ∃ t, (empty n).insert? addr entry = some t := by
  rw [← Option.isSome_iff_exists, Option.isSome_iff_ne_none]
  intro hnone
  have hfull := ((sound_empty n).insert?_eq_none.mp hnone).2
  rw [count_empty, empty, Array.size_replicate] at hfull
  omega

end EntryTable

namespace CodeCache

variable {ledger : List Engine.Filed} {p : Nat}

theorem entry_setBuffer (c : CodeCache) (key : UInt64) (b : CodeBuffer) (x : UInt64) :
    (c.setBuffer key b).entry x = c.entry x := by
  cases hp : c.page? key with
  | none => simp only [setBuffer, hp]
  | some p =>
    rw [setBuffer_eq hp]
    have htable (q : Nat) : ((c.setPage p { c.page p with buffer := b }).page q).table =
        (c.page q).table := by
      rw [page_setPage]
      split_ifs with hq
      · rw [hq]
      · rfl
    simp only [entry, htable]
    rfl

theorem Sound.entry_update (h : c.Sound) (hup : c.update key entry = .ok c') (x : UInt64) :
    c'.entry x = if key = x then entry else c.entry x := by
  have hfind := h.find?_update hup x
  have hreach : c.canReach key = true := by
    unfold CodeCache.update at hup
    cases hp : c.page? key with
    | none => simp [canReach, hp]
    | some p =>
      simp only [hp] at hup
      split_ifs at hup with htable
      simpa [canReach, hp] using htable
  obtain ⟨p, table, -, -, rfl⟩ := update_eq_ok hup
  have hsame : (c.setPage p { c.page p with table }).canReach x = c.canReach x := rfl
  rw [entry_eq_find?, entry_eq_find?, hfind, hsame]
  by_cases hkey : key = x
  · subst hkey
    simp [hreach]
  · simp [hkey]

theorem Holds.ne_zero (h : c.Holds ledger) (hfind : c.find? key = some entry) : entry ≠ 0 := by
  obtain ⟨p, -, hentry⟩ := Option.bind_eq_some_iff.mp hfind
  obtain ⟨i, hs⟩ := (h.sound.table p).find?_eq_some.mp hentry
  obtain ⟨f, -, hplace, -⟩ := (h.page p).code i _ hs
  rintro rfl
  have hbase : regionBase.toNat = 0x7f0000000000 := rfl
  rw [UInt64.toNat_zero] at hplace
  omega

/-- An emptied page has at least the room that is left in a page. -/
theorem Holds.roomier (h : c.Holds ledger) (p : Nat) :
    Native.Roomier (c.page p).buffer c.emptyPage.buffer := by
  have hinside := h.inside p
  have hlow := hinside.low
  have hcapacity := (h.page p).capacity
  have hsmall := hinside.small
  rw [hcapacity] at hsmall
  refine ⟨hinside, ⟨le_rfl, Int.natCast_nonneg _, hsmall⟩, (h.page p).error, rfl, ?_⟩
  simp only [emptyPage]
  omega

theorem page_clear (hp : c.page? key = some p) (hkey : key.toNat + 1 < 2 ^ 64) :
    (c.invalidate key (key + 1)).2.page p = c.emptyPage := by
  obtain ⟨hpage, hlt⟩ := page?_eq_some.mp hp
  rw [page_invalidate, if_pos]
  refine ⟨hlt, key, UInt64.le_refl key, ?_, hpage⟩
  rw [UInt64.lt_iff_toNat_lt, UInt64.toNat_add, UInt64.toNat_one, Nat.mod_eq_of_lt hkey]
  omega

end CodeCache

namespace Engine

variable {code : List UInt8} {x addr : UInt64}

variable {e : Engine} {g : Graph} {p : Nat} {ledger : List Filed}

theorem attempt_of_error {f : Native.AssembleFailure} (hp : e.cache.page? key = some p)
    (hasm : Native.assemble e.space (e.cache.page p).buffer g = (.error f, b)) :
    e.attempt key g = (.error (f.map .assemble), { e with cache := e.cache.setBuffer key b }) := by
  simp only [attempt, hp, hasm]

theorem attempt_of_ok {code : Native.Assembled} (hp : e.cache.page? key = some p)
    (htable : e.cache.hasTable p = true)
    (hasm : Native.assemble e.space (e.cache.page p).buffer g = (.ok code, b)) :
    e.attempt key g =
      match (e.cache.page p).table.insert? key (e.cache.entryAt p code.offset) with
      | none => (.error (.error (.cache (.full p key))),
          { e with cache := e.cache.setBuffer key b })
      | some table => (.ok ⟨e.cache.entryAt p code.offset, code⟩,
          { e with cache := (e.cache.setBuffer key b).setPage p ⟨b, table⟩ }) := by
  have hset := setBuffer_eq hp b
  have hpage : (e.cache.setBuffer key b).page p = ⟨b, (e.cache.page p).table⟩ := by
    rw [hset, page_setPage, if_pos rfl]
  have hp' : (e.cache.setBuffer key b).page? key = some p := by
    rw [hset]
    exact hp
  have htable' : (e.cache.setBuffer key b).hasTable p = true := by
    rw [hset]
    exact htable
  have hentry : (e.cache.setBuffer key b).entryAt p code.offset = e.cache.entryAt p code.offset := by
    rw [hset]
    rfl
  simp only [attempt, hp, hasm, hentry, update, hp', htable', hpage, Bool.not_true,
    Bool.false_eq_true, if_false]
  cases (e.cache.page p).table.insert? key (e.cache.entryAt p code.offset) <;> rfl

/-- An attempt ended with `r`, which is the outcome of assembly in an empty buffer. -/
def EndsAsEmpty (e : Engine) (g : Graph) (r : Except EngineFailure Installed) : Prop :=
  (∃ f, (Native.assemble e.space e.cache.emptyPage.buffer g).1 = .error f ∧
    r = .error (f.map .assemble)) ∨
  ∃ code i, (Native.assemble e.space e.cache.emptyPage.buffer g).1 = .ok code ∧ r = .ok i

theorem attempt_of_emptyPage (hp : e.cache.page? key = some p) (htable : e.cache.hasTable p = true)
    (hmap : 0 < e.cache.mapSize) (hempty : e.cache.page p = e.cache.emptyPage) :
    e.EndsAsEmpty g (e.attempt key g).1 := by
  unfold EndsAsEmpty
  rcases hasm : Native.assemble e.space e.cache.emptyPage.buffer g with ⟨f | code, b⟩
  · refine Or.inl ⟨f, rfl, ?_⟩
    rw [attempt_of_error hp (by rw [hempty, hasm])]
  · refine Or.inr ⟨code, ⟨e.cache.entryAt p code.offset, code⟩, rfl, ?_⟩
    obtain ⟨table, hins⟩ := EntryTable.insert?_empty hmap key (e.cache.entryAt p code.offset)
    rw [attempt_of_ok hp htable (by rw [hempty, hasm]), hempty, emptyPage_table, hins]

theorem lastTry_of_isFull {err : EngineError} (h : e.attempt key g = (.error (.error err), e'))
    (hfull : err.isFull = true) :
    e.lastTry key g = ({ e' with stats.retries := e'.stats.retries + 1 }.clear key (key + 1)).2 := by
  simp only [lastTry, h, hfull, if_true]

theorem lastTry_of_not_isFull
    (h : ∀ err, (e.attempt key g).1 = .error (.error err) → err.isFull = false) :
    e.lastTry key g = e := by
  unfold lastTry
  split
  · rename_i err e' hattempt
    rw [h err (by rw [hattempt])]
    rfl
  · rfl

/-- The attempt that decides has the outcome of assembly in an empty buffer. -/
theorem attempt_lastTry (hold : e.cache.Holds ledger) (hp : e.cache.page? key = some p)
    (htable : e.cache.hasTable p = true) (hmap : 0 < e.cache.mapSize)
    (hkey : key.toNat + 1 < 2 ^ 64) :
    e.EndsAsEmpty g ((e.lastTry key g).attempt key g).1 := by
  by_cases hfull : ∃ err, (e.attempt key g).1 = .error (.error err) ∧ err.isFull = true
  · -- the second attempt meets an empty page
    obtain ⟨err, herr, hfull⟩ := hfull
    obtain ⟨cache, hsnd⟩ := e.attempt_snd key g
    obtain ⟨pages, hshape⟩ := e.sameShape_attempt key g
    rw [hsnd] at hshape
    simp only at hshape
    subst hshape
    rw [lastTry_of_isFull (Prod.ext herr hsnd) hfull]
    exact attempt_of_emptyPage (e := ({ e with
        cache := { e.cache with pages }
        stats.retries := e.stats.retries + 1 }.clear key (key + 1)).2) hp htable hmap
      (page_clear (c := { e.cache with pages }) hp hkey)
  · -- the first attempt did not lack room
    push Not at hfull
    have hfree (err : EngineError) (h : (e.attempt key g).1 = .error (.error err)) :
        err.isFull = false := by simpa using hfull err h
    rw [lastTry_of_not_isFull hfree]
    rcases (hold.roomier p).assemble e.space g with ⟨f, hf, o, rfl⟩ | ⟨f, hf, hf₀⟩ |
      ⟨code, code₀, hcode, hcode₀⟩
    · have hattempt := attempt_of_error hp (Prod.ext hf rfl)
      exact absurd (hfree _ (by rw [hattempt]; rfl)) (by simp [EngineError.isFull, EngineError.report,
        Native.AssembleError.report, Machine.Overflow.report])
    · have hattempt := attempt_of_error hp (Prod.ext hf rfl)
      exact Or.inl ⟨f, hf₀, by rw [hattempt]⟩
    · refine Or.inr ⟨code₀, ⟨e.cache.entryAt p code.offset, code⟩, hcode₀, ?_⟩
      have hattempt := attempt_of_ok hp htable (Prod.ext hcode rfl)
      cases hins : (e.cache.page p).table.insert? key (e.cache.entryAt p code.offset) with
      | some table => rw [hattempt, hins]
      | none =>
        rw [hins] at hattempt
        exact absurd (hfree _ (by rw [hattempt])) (by simp [EngineError.isFull, EngineError.report,
          CacheError.report, CacheError.fault, Report.remark, Report.ofFault])

theorem entry_attempt (hsound : e.cache.Sound) (key x : UInt64) :
    (e.attempt key g).2.cache.entry x =
      match (e.attempt key g).1 with
      | .ok i => if key = x then i.entry else e.cache.entry x
      | .error _ => e.cache.entry x := by
  rcases e.attempt_cases key g with ⟨-, f, hattempt⟩ | ⟨p, hp, ⟨f, b, -, f', hattempt⟩ |
    ⟨code, b, -, ⟨f, hattempt⟩ | ⟨c, hup, hattempt⟩⟩⟩
  · rw [hattempt]
  · rw [hattempt]
    exact e.cache.entry_setBuffer key b x
  · rw [hattempt]
    exact e.cache.entry_setBuffer key b x
  · rw [hattempt]
    simp only
    rw [(hsound.setBuffer hp b).entry_update hup, e.cache.entry_setBuffer]

theorem entry_ne_zero_of_attempt (h : e.cache.Holds ledger) {i : Installed}
    (hok : (e.attempt key g).1 = .ok i) : i.entry ≠ 0 := by
  have hholds := holds_attempt h key g 0 0
  rcases e.attempt_cases key g with ⟨-, f, hattempt⟩ | ⟨p, hp, ⟨f, b, -, f', hattempt⟩ |
    ⟨code, b, -, ⟨f, hattempt⟩ | ⟨c, hup, hattempt⟩⟩⟩
  · simp [hattempt] at hok
  · simp [hattempt] at hok
  · simp [hattempt] at hok
  · rw [hattempt] at hok hholds
    cases hok
    exact hholds.ne_zero (by rw [(h.sound.setBuffer hp b).find?_update hup, if_pos rfl])

/-- A page that is emptied for a second attempt has no entry point that it did not have before. -/
theorem entry_lastTry (hsound : e.cache.Sound) (h : e.cache.entry x = 0) :
    (e.lastTry key g).cache.entry x = 0 := by
  rcases e.lastTry_cases key g with hkeep | ⟨f, hf, hclear⟩
  · rw [hkeep, h]
  · rw [hclear, entry_invalidate, entry_attempt hsound, hf, h]
    exact ite_self 0

theorem compile_of_translate (hkey : e.locate addr = .ok key) (hreach : e.cache.canReach key = true)
    (hentry : e.cache.entry key = 0) (hgraph : (e.translate span addr code).1 = .ok g) :
    ∃ span', (e.compile addr code).1 =
        ((e.translate span addr code).2.1.install span' key g).1.map Installed.entry ∧
      (e.compile addr code).2.cache =
        ((e.translate span addr code).2.1.install span' key g).2.1.cache := by
  obtain ⟨span₀, fallbacks, spans, hfst, hsnd⟩ := e.compile_eq addr code
  obtain ⟨hsame, hsame', -⟩ := e.translate_eq span span₀ addr code
  rcases htranslate : e.translate span₀ addr code with ⟨r, e', span'⟩
  rw [hgraph, htranslate] at hsame
  rw [htranslate] at hsame'
  simp only at hsame hsame'
  subst hsame
  refine ⟨span', ?_, ?_⟩
  · rw [hfst, entryFor, hkey, hsame']
    simp [hreach, hentry, htranslate]
  · rw [hsnd, entryFor, hkey, hsame']
    simp [hreach, hentry, htranslate]

/-! ## What disturbs an entry point -/

/-- A call for the code at `addr` empties the page of a key and tries again. -/
def Retries (e : Engine) (key addr : UInt64) (r : Request) : Prop :=
  e.cache.page? (e.key addr) = e.cache.page? key ∧ (e.serve r).stats.retries ≠ e.stats.retries

/-- The requests after which an entry point need not be found any more. -/
def Disturbs (e : Engine) (key : UInt64) : Request → Prop
  | .call (.bind s) => (e.after (.bind s)).bound ≠ e.bound
  | .call (.invalidate start stop) => start < stop ∧
      Overlaps e.cache.pageShift (e.key start) (e.key start + (stop - start))
        (key.toNat >>> e.cache.pageShift)
  | .call (.explain addr code) =>
      e.key addr = key ∨ e.Retries key addr (.call (.explain addr code))
  | .call (.compile addr code) => e.Retries key addr (.call (.compile addr code))
  | .execute addr code => e.Retries key addr (.execute addr code)
  | .call (.lookup _) | .call (.interpret _ _ _) => False
  | .close => True

/-- None of the requests disturbs the entry point of a key. -/
def Undisturbed (key : UInt64) : Engine → List Request → Prop
  | _, [] => True
  | e, r :: rs => ¬ e.Disturbs key r ∧ Undisturbed key (e.serve r) rs

theorem after_compile_of_entry (h : e.cache.entry (e.key addr) ≠ 0) (code : List UInt8) :
    (e.after (.compile addr code)).cache = e.cache := by
  obtain ⟨span, fallbacks, spans, -, hcompile⟩ := e.compile_eq addr code
  rw [after, hcompile]
  unfold entryFor
  cases hkey : e.locate addr with
  | error err => rfl
  | ok key =>
    obtain ⟨rfl, -⟩ := locate_eq_ok hkey
    by_cases hreach : e.cache.canReach (e.key addr) = true
    · simp [hreach, h]
    · simp [hreach]

/-- A region that is installed without emptying its page changes no entry point but its own. -/
theorem entry_of_installs {f : Option Filed} (hsound : e.cache.Sound)
    (h : e.Installs addr code e' f) (hkey : e.key addr ≠ key)
    (hretries : e'.stats.retries = e.stats.retries) : e'.cache.entry key = e.cache.entry key := by
  obtain ⟨key', g, space, hlocate, hcache, -, hfirst⟩ := h
  obtain ⟨rfl, -⟩ := locate_eq_ok hlocate
  rw [hcache, hfirst hretries, entry_attempt (e := { e with space }) hsound]
  split
  · exact if_neg hkey
  · rfl

theorem entry_of_page_eq (hshape : SameShape c c') (hp : c.page? key = some p)
    (hpage : c'.page p = c.page p) : c'.entry key = c.entry key := by
  obtain ⟨pages, rfl⟩ := hshape
  have hp' : ({ c with pages } : CodeCache).page? key = some p := hp
  simp only [entry, hp, hp', hpage]
  rfl

theorem entry_ne_zero_page? (h : c.entry key ≠ 0) : ∃ p, c.page? key = some p := by
  cases hp : c.page? key with
  | none => simp [entry, hp] at h
  | some p => exact ⟨p, rfl⟩

/-- A call at a site keeps an entry point of another page, and one of the same page if it does not empty
the page and is for another region. -/
theorem entry_after_site {call : Call} (hsound : e.cache.Sound) (hsite : call.site? = some addr)
    (hentry : e.cache.entry key ≠ 0) (hkey : e.key addr ≠ key)
    (hretries : ¬ e.Retries key addr (.call call)) :
    (e.after call).cache.entry key = e.cache.entry key := by
  obtain ⟨p, hp⟩ := entry_ne_zero_page? hentry
  rcases e.after_cases call with ⟨hcache, -⟩ | ⟨hclear, -⟩ | ⟨addr', code, hsite', hinstalls⟩
  · rw [hcache]
  · cases call <;> cases hsite <;> cases hclear
  · obtain rfl : addr = addr' := Option.some.inj (hsite.symm.trans hsite')
    by_cases hpage : e.cache.page? (e.key addr) = e.cache.page? key
    · refine entry_of_installs hsound hinstalls hkey ?_
      by_contra hne
      exact hretries ⟨hpage, hne⟩
    · refine entry_of_page_eq (e.sameShape_after call) hp ?_
      rcases e.confined call p with hsame | ⟨addr', hsite'', hp'⟩ | ⟨hclear, -⟩
      · exact hsame
      · obtain rfl : addr = addr' := Option.some.inj (hsite.symm.trans hsite'')
        exact absurd (hp'.trans hp.symm) hpage
      · cases call <;> cases hsite <;> cases hclear

theorem entry_after_compile (hsound : e.cache.Sound) (hentry : e.cache.entry key ≠ 0)
    (hretries : ¬ e.Retries key addr (.call (.compile addr code))) :
    (e.after (.compile addr code)).cache.entry key = e.cache.entry key := by
  by_cases hkey : e.key addr = key
  · rw [after_compile_of_entry (hkey ▸ hentry)]
  · exact entry_after_site hsound rfl hentry hkey hretries

theorem entry_after_bind {s : Guest.State} (h : (e.after (.bind s)).bound = e.bound) :
    (e.after (.bind s)).cache = e.cache := by
  rw [after] at h ⊢
  cases hbind : e.bind s with
  | error err => rfl
  | ok e' =>
    rw [hbind] at h
    obtain ⟨space, -, ⟨-, rfl⟩ | ⟨⟨old, hold, hne⟩, rfl⟩⟩ := bind_eq_ok hbind
    · rfl
    · simp only [hold, Option.some.injEq] at h
      exact absurd h.symm hne

theorem entry_serve (hsound : e.cache.Sound) (hentry : e.cache.entry key ≠ 0) {r : Request}
    (hr : ¬ e.Disturbs key r) : (e.serve r).cache.entry key = e.cache.entry key := by
  cases r with
  | close => exact absurd trivial hr
  | execute addr code =>
    have hstats : (e.after (.lookup addr)).stats.retries = e.stats.retries := by
      simp only [after, lookup]
      split_ifs <;> rfl
    obtain ⟨stats, hlookup⟩ := e.after_lookup addr
    obtain ⟨calls, hcalls, n, spans, hexecute⟩ := e.execute_snd addr code
    simp only [Disturbs, Retries, serve, hexecute] at hr ⊢
    rcases hcalls with rfl | rfl | rfl
    · rfl
    · rw [List.foldl_cons, List.foldl_nil, hlookup]
    · simp only [List.foldl_cons, List.foldl_nil] at hr ⊢
      rw [← hstats] at hr
      rw [hlookup] at hr ⊢
      exact entry_after_compile (e := { e with stats }) hsound hentry hr
  | call c =>
    cases c with
    | bind s => exact congrArg (entry · key) (entry_after_bind (not_not.mp hr))
    | compile addr code => exact entry_after_compile hsound hentry hr
    | explain addr code =>
      obtain ⟨hkey, hretries⟩ := not_or.mp hr
      exact entry_after_site hsound rfl hentry hkey hretries
    | interpret h addr code =>
      obtain ⟨space, spans, hafter⟩ := e.after_interpret addr code h
      rw [serve, hafter]
    | lookup addr =>
      obtain ⟨stats, hafter⟩ := e.after_lookup addr
      rw [serve, hafter]
    | invalidate start stop =>
      simp only [serve, after, invalidate]
      split_ifs with hle
      · rfl
      · have hover := not_and.mp hr (UInt64.not_le.mp hle)
        exact (e.cache.entry_invalidate _ _ key).trans (if_neg hover)

/-- An entry point is found as long as nothing disturbs it. -/
theorem entry_serveAll {c₀ : CodeCache} (h : Lives s c₀ e) (hentry : e.cache.entry key ≠ 0)
    {rs : List Request} (hrs : Undisturbed key e rs) :
    (e.serveAll rs).cache.entry key = e.cache.entry key := by
  induction rs generalizing e with
  | nil => rfl
  | cons r rs ih =>
    obtain ⟨hr, hrs⟩ := hrs
    have hsound : e.cache.Sound := by
      rcases h.cache with hclosed | ⟨-, ledger, hholds⟩
      · exact absurd (entry_of_pageCount_eq_zero hclosed key) hentry
      · exact hholds.sound
    have hserve := entry_serve hsound hentry hr
    exact (ih (h.serve r) (hserve ▸ hentry) hrs).trans hserve

/-! ## One emptied page -/

theorem lift_of_translate (h : (e.translate span addr code).1 = .ok g) :
    ∃ raw, (e.lifter.lift e.space.reset addr (code.take (e.pageRoom addr))).1 = .ok raw := by
  unfold translate lifted at h
  simp only at h
  cases hlift : (e.lifter.lift e.space.reset addr (code.take (e.pageRoom addr))).1 with
  | error err => simp [hlift, Except.mapError] at h
  | ok raw => exact ⟨raw, rfl⟩

/-- A region starts at the address of a word, so its key is not the last address. -/
theorem key_lt_of_translate (h : (e.translate span addr code).1 = .ok g) :
    (e.key addr).toNat + 1 < 2 ^ 64 := by
  obtain ⟨raw, hraw⟩ := lift_of_translate h
  by_contra hlast
  have hle : (e.key addr).toNat ≤ addr.toNat := by
    rw [key, UInt64.toNat_and]
    exact Nat.and_le_left
  have haddr : addr = 0xffffffffffffffff := by
    have hlt := addr.toNat_lt
    refine UInt64.toNat_inj.mp ?_
    change addr.toNat = 0xffffffffffffffff
    omega
  obtain ⟨m, w, hdecode, -⟩ := Guest.Lifter.liftable_of_lift _ _ _ _ hraw
  obtain ⟨hfetch, -⟩ := Guest.Region.decode?_eq_some.mp hdecode
  have haligned : (addr &&& (e.space.reset.binding 1).ty.mask) &&& 3 = 0 := by
    unfold Guest.CodeWindow.fetch? at hfetch
    by_contra hodd
    simp only [Guest.Lifter.window, ne_eq, hodd, not_false_eq_true, if_true, reduceCtorEq] at hfetch
  rw [Guest.Lifter.lift_eq] at hraw
  dsimp only at hraw
  split_ifs at hraw with hwidth
  rw [not_and_or, not_not, not_not] at hwidth
  rcases hwidth with hty | hty
  all_goals
    rw [haddr, hty] at haligned
    exact absurd haligned (by decide)

/-- Compiling region `a` has the outcome of assembling its graph in an empty buffer of a size. The entry
point is found from then on until something disturbs it; a region that is refused has none. -/
structure CompilesAsEmpty (e : Engine) (a : UInt64) (code : List UInt8) (size : Nat)
    (space : Workspace) (g : Graph) : Prop where
  ok : ∀ c, (Native.assemble space { capacity := size } g).1 = .ok c →
    ∃ entry, entry ≠ 0 ∧ (e.compile a code).1 = .ok entry ∧
      ∀ rs, Undisturbed (e.key a) (e.compile a code).2 rs →
        (((e.compile a code).2.serveAll rs).lookup a).1 = entry
  error : ∀ f, (Native.assemble space { capacity := size } g).1 = .error f →
    (e.compile a code).1 = .error (f.map .assemble) ∧ ((e.compile a code).2.lookup a).1 = 0

theorem Lives.cache_of_page? (hnew : create s = .ok e₀) (h : Lives s e₀.cache e)
    (hp : e.cache.page? key = some p) :
    0 < e.cache.mapSize ∧ e.cache.bufferSize = s.cache.bufferSize.toNat ∧
      ∃ ledger, e.cache.Holds ledger := by
  rcases h.cache with hclosed | ⟨⟨pages, hshape⟩, hholds⟩
  · have hlt := (CodeCache.page?_eq_some.mp hp).2
    omega
  · obtain ⟨-, -, -, hmap, -, hcache⟩ := CodeCache.create_eq_ok (create_eq_ok hnew).1
    refine ⟨?_, ?_, hholds⟩
    · rw [hshape, hcache]
      simp only
      omega
    · rw [hshape, hcache]

theorem compilesAsEmpty (hnew : create s = .ok e₀) (h : Lives s e₀.cache e) {a : UInt64}
    (hbound : e.bound ≠ none) (hp : e.cache.page? (e.key a) = some p)
    (htable : e.cache.hasTable p = true) (hfree : (e.lookup a).1 = 0)
    (hgraph : (e.translate span a code).1 = .ok g) :
    e.CompilesAsEmpty a code s.cache.bufferSize.toNat (e.translate span a code).2.1.space g := by
  obtain ⟨hmap, hsize, ledger, hholds⟩ := h.cache_of_page? hnew hp
  have hkey : e.locate a = .ok (e.key a) := by
    obtain ⟨guest, hguest⟩ := Option.ne_none_iff_exists'.mp hbound
    simp only [locate, hguest, hp]
  have hreach : e.cache.canReach (e.key a) = true := by
    rw [canReach, hp]
    exact htable
  obtain ⟨span', hfst, hcache⟩ := compile_of_translate hkey hreach hfree hgraph
  obtain ⟨-, -, space, hspace⟩ := e.translate_eq span span a code
  rw [hspace] at hfst hcache ⊢
  rw [← hsize]
  obtain ⟨hdecides, hdecides', -⟩ := install_eq { e with space } span' (e.key a) g
  have hdecided := attempt_lastTry (e := { e with space }) (g := g) hholds hp htable hmap
    (key_lt_of_translate hgraph)
  have hlast : (lastTry { e with space } (e.key a) g).cache.Holds ledger :=
    holds_lastTry (e := { e with space }) hholds (e.key a) g
  have hentry := entry_attempt (g := g) hlast.sound (e.key a) (e.key a)
  have hlives : Lives s e₀.cache (e.compile a code).2 := h.after (.compile a code)
  have hsame : (e.compile a code).2.key a = e.key a := by
    rw [key, key, hlives.settings, h.settings]
  rw [← hdecides, ← hdecides', ← hcache] at hentry
  rw [← hdecides] at hdecided
  constructor
  · intro c hc
    rcases hdecided with ⟨f, hf, -⟩ | ⟨-, i, -, hi⟩
    · exact absurd (hf.symm.trans hc) (by simp)
    · have hne : i.entry ≠ 0 := entry_ne_zero_of_attempt hlast (hdecides ▸ hi)
      rw [hi] at hfst hentry
      simp only [if_true] at hentry
      refine ⟨i.entry, hne, hfst, fun rs hrs => ?_⟩
      have hkeeps := entry_serveAll hlives (hentry.symm ▸ hne) hrs
      rw [lookup, key, (hlives.serveAll rs).settings, ← h.settings]
      exact hkeeps.trans hentry
  · intro f hf
    rcases hdecided with ⟨f', hf', hfail⟩ | ⟨c, -, hc, -⟩
    · obtain rfl : f' = f := Except.error.inj (hf'.symm.trans hf)
      rw [hfail] at hfst hentry
      refine ⟨hfst, ?_⟩
      rw [lookup, hsame]
      exact hentry.trans (entry_lastTry (e := { e with space }) hholds.sound hfree)
    · exact absurd (hc.symm.trans hf) (by simp)

def returning : List UInt8 := [0x03, 0xe0, 0, 8, 0, 0, 0, 0]

/-- The engine has a guest, and a region at address 8 that has no code yet but could be assembled in an
empty buffer. -/
def Awaits (s : Settings) (e : Engine) (g : Graph) : Prop :=
  e.bound ≠ none ∧ e.cache.page? (e.key 8) = some 0 ∧ (e.lookup 8).1 = 0 ∧
    (e.translate (addrSpan "" 8) 8 returning).1 = .ok g ∧
    ∃ c, (Native.assemble (e.translate (addrSpan "" 8) 8 returning).2.1.space
      { capacity := s.cache.bufferSize.toNat } g).1 = .ok c

/-- What compiling the region gives, and what is found at address zero then. -/
def compileSecond (s : Settings) : Option (Except EngineFailure UInt64 × UInt64) :=
  match create s with
  | .error _ => none
  | .ok e₀ =>
      let e := e₀.serveAll oneGuest
      match e.translate (addrSpan "" 8) 8 returning with
      | (.error _, _) => none
      | (.ok g, e', _) =>
          if e.bound.isSome ∧ e.cache.page? (e.key 8) = some 0 ∧ (e.lookup 8).1 = 0 ∧
              (Native.assemble e'.space { capacity := s.cache.bufferSize.toNat } g).1.isOk then
            some ((e.compile 8 returning).1, ((e.compile 8 returning).2.lookup 0).1)
          else none

theorem compileSecond_eq_some {r : Except EngineFailure UInt64} (h : compileSecond s = some (r, x)) :
    ∃ e₀ g, create s = .ok e₀ ∧
      Awaits s (e₀.serveAll oneGuest) g ∧ ((e₀.serveAll oneGuest).compile 8 returning).1 = r ∧
      (((e₀.serveAll oneGuest).compile 8 returning).2.lookup 0).1 = x := by
  unfold compileSecond at h
  split at h
  · cases h
  · rename_i e₀ hnew
    simp only at h
    split at h
    · cases h
    · rename_i g e' span htranslate
      split_ifs at h with hall
      obtain ⟨hbound, hp, hfree, hok⟩ := hall
      simp only [Option.some.injEq, Prod.mk.injEq] at h
      refine ⟨e₀, g, hnew, ⟨Option.isSome_iff_ne_none.mp hbound, hp, hfree, ?_, ?_⟩, h⟩
      · rw [htranslate]
      · rw [htranslate]
        exact ⟨_, Except.eq_ok_getD hok default⟩

end Engine

end Dynarec
