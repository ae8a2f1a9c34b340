import Dynarec.Engine.Explain
import Dynarec.Proofs.Cache.Pages
import Dynarec.Proofs.Graph.Typing
import Dynarec.Proofs.Native.Assemble

/-!
# Histories of an engine

An engine is called again and again, and every call leaves an engine, whether it succeeds or not. A
ledger keeps what the calls put into the cache: for which guest bytes, and the bytes that assembly
wrote. It is no part of the engine; it says what the cache should have.
-/
namespace Dynarec.Engine

open Machine (CodeBuffer)

variable {e' : Engine}

inductive Call where
  | bind (s : Guest.State)
  | compile (addr : UInt64) (code : List UInt8)
  | explain (addr : UInt64) (code : List UInt8)
  | interpret (h : Host) (addr : UInt64) (code : List UInt8)
  | lookup (addr : UInt64)
  | invalidate (start stop : UInt64)

def after (e : Engine) : Call → Engine
  | .bind s =>
      match e.bind s with
      | .ok e => e
      | .error _ => e
  | .compile addr code => (e.compile addr code).2
  | .explain addr code => (e.explain addr code).2.2
  | .interpret h addr code => (e.interpret h addr code).2.1
  | .lookup addr => (e.lookup addr).2
  | .invalidate start stop => (e.invalidate start stop).2

/-- The address that a call may install code for. -/
def Call.site? : Call → Option UInt64
  | .compile addr _ | .explain addr _ => some addr
  | _ => none

/-- Whether a call may empty pages that have nothing to do with a site. -/
def Call.mayClear : Call → Bool
  | .bind _ | .invalidate _ _ => true
  | _ => false

/-- Code that assembly wrote: its place in the buffer of its page, and its bytes. -/
structure Snippet where
  offset : Nat
  bytes : List UInt8
deriving DecidableEq

def Snippet.stop (s : Snippet) : Nat :=
  s.offset + s.bytes.length

/-- A snippet, the key it was stored under, and the guest bytes it was made from: `count` bytes from
`addr` on. -/
structure Filed extends Snippet where
  key : UInt64
  addr : UInt64
  count : Nat
deriving DecidableEq

def Snippet.file (s : Snippet) (key addr : UInt64) (count : Nat) : Filed :=
  { s with key, addr, count }

/-- What an attempt stores, if it succeeds. -/
def stored (e : Engine) (key : UInt64) (g : Graph) : Option Snippet :=
  match e.cache.page? key, (e.attempt key g).1 with
  | some p, .ok _ =>
      match Native.assemble e.space (e.cache.page p).buffer g with
      | (.ok code, buffer) =>
          some ⟨code.offset, buffer.extract code.offset (code.offset + code.length)⟩
      | (.error _, _) => none
  | _, _ => none

/-- The engine that the attempt which decides is made on: the page is emptied if it was full before. -/
def lastTry (e : Engine) (key : UInt64) (g : Graph) : Engine :=
  match e.attempt key g with
  | (.error (.error err), e') =>
      if err.isFull then
        ({ e' with stats.retries := e'.stats.retries + 1 }.clear key (key + 1)).2
      else e
  | _ => e

/-- What is filed when a region is translated and installed. -/
def filedAt (e : Engine) (addr : UInt64) (code : List UInt8) : Option Filed :=
  match e.locate addr, e.translate (addrSpan "" addr) addr code with
  | .ok key, (.ok g, e', _) =>
      ((e'.lastTry key g).stored key g).map fun s =>
        s.file key addr (min code.length (e.pageRoom addr))
  | _, _ => none

/-- What a call files. Compiling leaves code that is in the cache as it is. -/
def filed (e : Engine) : Call → Option Filed
  | .compile addr code =>
      if e.cache.canReach (e.key addr) && e.cache.entry (e.key addr) == 0 then e.filedAt addr code
      else none
  | .explain addr code => e.filedAt addr code
  | _ => none

/-- One call, with what it files in front of the ledger. -/
def record (past : List Filed × Engine) (call : Call) : List Filed × Engine :=
  ((past.2.filed call).toList ++ past.1, past.2.after call)

/-- The ledger and the engine after a sequence of calls. -/
def history (e : Engine) (calls : List Call) : List Filed × Engine :=
  calls.foldl record ([], e)

theorem create_eq_ok {e : Engine} {s : Settings} (h : create s = .ok e) :
    CodeCache.create s.cache.pageSize s.cache.pageCount s.cache.bufferSize s.cache.mapSize =
      .ok e.cache ∧ e.settings = s ∧ e.bound = none := by
  obtain ⟨_, space, -, -, h⟩ := Except.bind₂_eq_ok.mp h
  obtain ⟨cache, hcache, h⟩ := Except.bind_eq_ok.mp h
  cases h
  exact ⟨Except.mapError_eq_ok.mp hcache, rfl, rfl⟩

/-! ## What the calls do to the cache -/

variable (e : Engine) (span span' : Span) (key addr : UInt64) (code : List UInt8) (g : Graph)

/-- The ways an attempt can go: there is no page, assembly fails, the table has no room, or the code is
stored. -/
theorem attempt_cases :
    (e.cache.page? key = none ∧ ∃ f, e.attempt key g = (.error f, e)) ∨
    ∃ p, e.cache.page? key = some p ∧
      ((∃ f b, Native.assemble e.space (e.cache.page p).buffer g = (.error f, b) ∧
        ∃ f', e.attempt key g = (.error f', { e with cache := e.cache.setBuffer key b })) ∨
      ∃ code b, Native.assemble e.space (e.cache.page p).buffer g = (.ok code, b) ∧
        ((∃ f, e.attempt key g = (.error f, { e with cache := e.cache.setBuffer key b })) ∨
        ∃ c, (e.cache.setBuffer key b).update key (e.cache.entryAt p code.offset) = .ok c ∧
          e.attempt key g = (.ok ⟨e.cache.entryAt p code.offset, code⟩, { e with cache := c }))) := by
  unfold attempt
  cases hp : e.cache.page? key with
  | none => exact Or.inl ⟨rfl, _, rfl⟩
  | some p =>
    refine Or.inr ⟨p, rfl, ?_⟩
    simp only
    cases hasm : Native.assemble e.space (e.cache.page p).buffer g with
    | mk r b =>
      cases r with
      | error f => exact Or.inl ⟨f, b, rfl, _, rfl⟩
      | ok code =>
        refine Or.inr ⟨code, b, rfl, ?_⟩
        have hentry : (e.cache.setBuffer key b).entryAt p code.offset =
            e.cache.entryAt p code.offset := by
          simp only [CodeCache.setBuffer, hp]
          rfl
        simp only [hentry]
        cases hup : (e.cache.setBuffer key b).update key (e.cache.entryAt p code.offset) with
        | error f => exact Or.inl ⟨_, rfl⟩
        | ok c => exact Or.inr ⟨c, rfl, rfl⟩

theorem attempt_snd : ∃ cache, (e.attempt key g).2 = { e with cache } := by
  rcases e.attempt_cases key g with ⟨-, f, hattempt⟩ | ⟨p, -, ⟨f, b, -, f', hattempt⟩ |
    ⟨code, b, -, ⟨f, hattempt⟩ | ⟨c, -, hattempt⟩⟩⟩
  all_goals
    rw [hattempt]
    exact ⟨_, rfl⟩

/-- An installation is the attempt that decides, which is the first one if no other is counted. -/
theorem install_eq :
    (e.install span key g).1 = ((e.lastTry key g).attempt key g).1 ∧
      (e.install span key g).2.1.cache = ((e.lastTry key g).attempt key g).2.cache ∧
      ((e.install span key g).2.1.stats.retries = e.stats.retries → e.lastTry key g = e) := by
  have hstats : (e.attempt key g).2.stats = e.stats := by
    obtain ⟨cache, hsnd⟩ := e.attempt_snd key g
    rw [hsnd]
  unfold install lastTry
  cases hfirst : e.attempt key g with
  | mk r e' =>
    rw [hfirst] at hstats
    cases r with
    | ok i => simp [hfirst, note]
    | error f =>
      cases f with
      | abort m => simp [hfirst]
      | error err =>
        by_cases hfull : err.isFull = true
        · simp only [hfull, Bool.not_true, Bool.false_eq_true, if_false, if_true]
          have hagain : (({ e' with
              stats.retries := e'.stats.retries + 1 }.clear key (key + 1)).2.attempt key g).2.stats.retries =
                e.stats.retries + 1 := by
            obtain ⟨cache, hsnd⟩ := attempt_snd ({ e' with
              stats.retries := e'.stats.retries + 1 }.clear key (key + 1)).2 key g
            rw [hsnd, ← hstats]
            rfl
          cases hsecond : ({ e' with
              stats.retries := e'.stats.retries + 1 }.clear key (key + 1)).2.attempt key g with
          | mk r e'' =>
            rw [hsecond] at hagain
            cases r with
            | ok i | error f => exact ⟨rfl, rfl, fun h => absurd (hagain.symm.trans h) (by omega)⟩
        · simp [hfull, hfirst]

theorem lifted_snd : ∃ space, (e.lifted addr code).2 = { e with space } :=
  ⟨_, rfl⟩

theorem refined_fst (raw : Graph) : (refined span raw).1 = (refined span' raw).1 := by
  unfold refined
  simp only
  split_ifs
  · rfl
  · split <;> rfl

theorem translate_eq :
    (e.translate span addr code).1 = (e.translate span' addr code).1 ∧
      (e.translate span addr code).2.1 = (e.translate span' addr code).2.1 ∧
      ∃ space, (e.translate span addr code).2.1 = { e with space } := by
  obtain ⟨space, hspace⟩ := e.lifted_snd addr code
  unfold translate
  cases hlift : e.lifted addr code with
  | mk r e' =>
    rw [hlift] at hspace
    cases r with
    | error err => exact ⟨rfl, rfl, space, hspace⟩
    | ok raw => exact ⟨refined_fst span span' raw, rfl, space, hspace⟩

variable {e span span' key addr code g}

theorem translate_of_error (span : Span) {err : EngineError}
    (h : e.lifted addr code = (.error err, e'))
    : e.translate span addr code = (.error (.error err), e', span) := by
  rw [translate, h]

theorem translate_of_ok {raw : Graph} {r : Except EngineFailure Graph}
    (h : e.lifted addr code = (.ok raw, e')) (hr : refined span raw = (r, span'))
    : e.translate span addr code = (r, e', span') := by
  rw [translate, h]
  simp only [hr]

theorem locate_eq_ok (h : e.locate addr = .ok key) :
    key = e.key addr ∧ ∃ p, e.cache.page? key = some p := by
  unfold locate at h
  cases hbound : e.bound with
  | none => simp [hbound] at h
  | some s =>
    cases hp : e.cache.page? (e.key addr) with
    | none => simp [hbound, hp] at h
    | some p =>
      simp only [hbound, hp, Except.ok.injEq] at h
      exact ⟨h.symm, p, h ▸ hp⟩

/-- A region is located and translated, and the attempt that decides gives the cache of `e'` and files
`f`. -/
def Installs (e : Engine) (addr : UInt64) (code : List UInt8) (e' : Engine) (f : Option Filed) :
    Prop :=
  ∃ key g space, e.locate addr = .ok key ∧
    e'.cache = (({ e with space }.lastTry key g).attempt key g).2.cache ∧
    (f = (({ e with space }.lastTry key g).stored key g).map fun s : Snippet =>
      s.file key addr (min code.length (e.pageRoom addr))) ∧
    (e'.stats.retries = e.stats.retries → { e with space }.lastTry key g = { e with space })

theorem filedAt_of_ok (hkey : e.locate addr = .ok key)
    (hgraph : e.translate span addr code = (.ok g, e', span')) :
    e.filedAt addr code = ((e'.lastTry key g).stored key g).map fun s : Snippet =>
      s.file key addr (min code.length (e.pageRoom addr)) := by
  obtain ⟨hfst, hsnd, -⟩ := e.translate_eq span (addrSpan "" addr) addr code
  unfold filedAt
  cases hagain : e.translate (addrSpan "" addr) addr code with
  | mk r rest =>
    rw [hgraph, hagain] at hfst hsnd
    simp only at hfst hsnd
    subst hfst hsnd
    simp only [hkey]

theorem installs_of_translate {e'' : Engine} (hkey : e.locate addr = .ok key)
    (hgraph : e.translate span addr code = (.ok g, e', span'))
    (hcache : e''.cache = (e'.install span' key g).2.1.cache)
    (hretries : e''.stats.retries = (e'.install span' key g).2.1.stats.retries)
    : e.Installs addr code e'' (e.filedAt addr code) := by
  obtain ⟨-, -, space, hspace⟩ := e.translate_eq span span addr code
  rw [hgraph] at hspace
  simp only at hspace
  obtain ⟨-, hlast, hfirst⟩ := e'.install_eq span' key g
  refine ⟨key, g, space, hkey, ?_, ?_, ?_⟩
  · rw [hcache, hlast, hspace]
  · rw [filedAt_of_ok hkey hgraph, hspace]
  · rw [hretries, ← hspace]
    intro hsame
    exact hfirst (by rw [hsame, hspace])

theorem filedAt_of_error {f : EngineFailure} {rest : Engine × Span}
    (hgraph : e.translate span addr code = (.error f, rest)) : e.filedAt addr code = none := by
  have hfst := (e.translate_eq span (addrSpan "" addr) addr code).1
  rw [hgraph] at hfst
  unfold filedAt
  cases hagain : e.translate (addrSpan "" addr) addr code with
  | mk r rest =>
    rw [hagain] at hfst
    subst hfst
    cases e.locate addr <;> rfl

theorem stored_eq_none {err : Native.HomeError} (h : Native.Homes.ofGraph g = .error err) (e : Engine)
    (key : UInt64) : e.stored key g = none := by
  unfold stored
  split
  · split
    · rename_i code b hasm
      obtain ⟨-, homes, hprepare, -⟩ := Native.assemble_eq_ok hasm
      cases h.symm.trans (Native.prepare_eq_ok.mp hprepare).2.2
    · rfl
  · rfl

theorem bind_eq_ok {s : Guest.State} (h : e.bind s = .ok e') :
    ∃ space, s.bind e.space e.width = .ok space ∧
      ((e.bound = none ∨ e.bound = some s) ∧ e' = { e with space, bound := some s } ∨
      (∃ old, e.bound = some old ∧ old ≠ s) ∧
        e' = { ({ e with space }.clear 0
          (e.cache.pageSize.toUInt64 * e.cache.pageCount.toUInt64)).2 with bound := some s }) := by
  obtain ⟨space, hspace, h⟩ := Except.bind_eq_ok.mp h
  refine ⟨space, Except.mapError_eq_ok.mp hspace, ?_⟩
  cases hbound : e.bound with
  | none =>
    simp only [hbound] at h
    cases h
    exact Or.inl ⟨Or.inl rfl, rfl⟩
  | some old =>
    simp only [hbound] at h
    split_ifs at h with hsame
    · cases h
      exact Or.inl ⟨Or.inr (by rw [hsame]), rfl⟩
    · cases h
      exact Or.inr ⟨⟨old, rfl, hsame⟩, rfl⟩

variable (e span key addr code g)

/-- Compiling is to find or make the entry point, and to note how that went. -/
theorem compile_eq :
    ∃ span fallbacks spans, (e.compile addr code).1 = (e.entryFor span addr code).1 ∧
      (e.compile addr code).2 =
        { (e.entryFor span addr code).2.1 with stats.fallbacks := fallbacks, spans } := by
  refine ⟨{ name := "recompiler.Compile", facts := [("mips.addr", .text (Text.hexWord addr)),
    ("mips.bytes", .number code.length)] }, ?_⟩
  unfold compile
  simp only
  split
  · rename_i hentry
    rw [hentry]
    exact ⟨_, _, rfl, rfl⟩
  · rename_i hentry
    rw [hentry]
    exact ⟨_, _, rfl, rfl⟩
  · rename_i hentry
    rw [hentry]
    split_ifs <;> exact ⟨_, _, rfl, rfl⟩

/-- Compiling keeps the cache and files nothing, or it installs the region. -/
theorem after_compile :
    ((e.after (.compile addr code)).cache = e.cache ∧ e.filed (.compile addr code) = none) ∨
      e.Installs addr code (e.after (.compile addr code)) (e.filed (.compile addr code)) := by
  obtain ⟨span, fallbacks, spans, -, hspan⟩ := e.compile_eq addr code
  rw [after, hspan, filed]
  unfold entryFor
  cases hkey : e.locate addr with
  | error err =>
    have hnone : e.filedAt addr code = none := by simp [filedAt, hkey]
    simp [hnone]
  | ok key =>
    obtain ⟨rfl, -⟩ := locate_eq_ok hkey
    by_cases hreach : e.cache.canReach (e.key addr) = true
    · by_cases hentry : e.cache.entry (e.key addr) = 0
      · simp only [hreach, hentry, Bool.not_true, Bool.false_eq_true, if_false, ne_eq,
          not_true_eq_false, beq_self_eq_true, Bool.and_self, if_true]
        cases hgraph : e.translate span addr code with
        | mk r rest =>
          cases r with
          | error f =>
            obtain ⟨-, -, space, hspace⟩ := e.translate_eq span span addr code
            rw [hgraph] at hspace
            simp only at hspace
            exact Or.inl ⟨by simp [hspace], filedAt_of_error hgraph⟩
          | ok g => exact Or.inr (installs_of_translate hkey hgraph rfl rfl)
      · simp [hreach, hentry]
    · simp [hreach]

theorem after_explain :
    ((e.after (.explain addr code)).cache = e.cache ∧ e.filed (.explain addr code) = none) ∨
      e.Installs addr code (e.after (.explain addr code)) (e.filed (.explain addr code)) := by
  rw [after, filed]
  unfold explain
  cases hkey : e.locate addr with
  | error err =>
    have hnone : e.filedAt addr code = none := by simp [filedAt, hkey]
    exact Or.inl ⟨rfl, hnone⟩
  | ok key =>
    simp only [endSpan]
    unfold explainFrom
    obtain ⟨space, hspace⟩ := e.lifted_snd addr code
    cases hlift : e.lifted addr code with
    | mk r e' =>
      rw [hlift] at hspace
      simp only at hspace
      cases r with
      | error err =>
        have hgraph := translate_of_error (addrSpan "" addr) hlift
        exact Or.inl ⟨by simp [hspace], filedAt_of_error hgraph⟩
      | ok raw =>
        simp only
        cases hrefined : refined (addrSpan "recompiler.Explain" addr) raw with
        | mk r span =>
          have hgraph := translate_of_ok hlift hrefined
          cases r with
          | error f => exact Or.inl ⟨by simp [hspace], filedAt_of_error hgraph⟩
          | ok g =>
            simp only
            unfold explainGraph
            cases hhomes : Native.Homes.ofGraph g with
            | error err =>
              refine Or.inl ⟨by simp [hspace], ?_⟩
              rw [filedAt_of_ok hkey hgraph, stored_eq_none hhomes, Option.map_none]
            | ok homes =>
              refine Or.inr (installs_of_translate hkey hgraph ?_ ?_)
              all_goals rcases e'.install span key g with ⟨f | i, rest⟩ <;> rfl

theorem after_interpret (h : Host) :
    ∃ space spans, e.after (.interpret h addr code) = { e with space, spans } := by
  obtain ⟨-, -, space, hspace⟩ :=
    e.translate_eq (addrSpan "recompiler.Interpret" addr) (addrSpan "" addr) addr code
  rw [after]
  unfold interpret
  simp only
  split
  · exact ⟨_, _, rfl⟩
  · rcases hgraph : e.translate (addrSpan "recompiler.Interpret" addr) addr code with ⟨r, e', span⟩
    rw [hgraph] at hspace
    subst hspace
    cases r with
    | error f => cases f <;> exact ⟨_, _, rfl⟩
    | ok g =>
      simp only
      split <;> exact ⟨_, _, rfl⟩

theorem after_lookup : ∃ stats, e.after (.lookup addr) = { e with stats } := by
  simp only [after, lookup]
  split_ifs <;> exact ⟨_, rfl⟩

theorem after_bind (s : Guest.State) :
    (e.after (.bind s)).cache = e.cache ∨
      ∃ start stop, (e.after (.bind s)).cache = (e.cache.invalidate start stop).2 := by
  rw [after]
  cases hbind : e.bind s with
  | error err => exact Or.inl rfl
  | ok e' =>
    obtain ⟨space, -, ⟨-, rfl⟩ | ⟨-, rfl⟩⟩ := bind_eq_ok hbind
    · exact Or.inl rfl
    · exact Or.inr ⟨_, _, rfl⟩

theorem after_invalidate (start stop : UInt64) :
    (e.after (.invalidate start stop)).cache = e.cache ∨
      ∃ start' stop', (e.after (.invalidate start stop)).cache =
        (e.cache.invalidate start' stop').2 := by
  simp only [after, invalidate]
  split_ifs
  · exact Or.inl rfl
  · exact Or.inr ⟨_, _, rfl⟩

/-- A call keeps the cache, or empties some pages of it, or installs the region at its site. -/
theorem after_cases (call : Call) :
    ((e.after call).cache = e.cache ∧ e.filed call = none) ∨
    (call.mayClear = true ∧ e.filed call = none ∧
      ∃ start stop, (e.after call).cache = (e.cache.invalidate start stop).2) ∨
    ∃ addr code, call.site? = some addr ∧
      e.Installs addr code (e.after call) (e.filed call) := by
  cases call with
  | bind s =>
    rcases e.after_bind s with hkeep | hclear
    · exact Or.inl ⟨hkeep, rfl⟩
    · exact Or.inr (Or.inl ⟨rfl, rfl, hclear⟩)
  | compile addr code =>
    rcases e.after_compile addr code with hkeep | hinstalls
    · exact Or.inl hkeep
    · exact Or.inr (Or.inr ⟨addr, code, rfl, hinstalls⟩)
  | explain addr code =>
    rcases e.after_explain addr code with hkeep | hinstalls
    · exact Or.inl hkeep
    · exact Or.inr (Or.inr ⟨addr, code, rfl, hinstalls⟩)
  | interpret h addr code =>
    obtain ⟨space, spans, hafter⟩ := e.after_interpret addr code h
    exact Or.inl ⟨by rw [hafter], rfl⟩
  | lookup addr =>
    obtain ⟨stats, hafter⟩ := e.after_lookup addr
    exact Or.inl ⟨by rw [hafter], rfl⟩
  | invalidate start stop =>
    rcases e.after_invalidate start stop with hkeep | hclear
    · exact Or.inl ⟨hkeep, rfl⟩
    · exact Or.inr (Or.inl ⟨rfl, rfl, hclear⟩)

/-! ## What no call changes -/

/-- Two caches differ in nothing but their pages. -/
def SameShape (c c' : CodeCache) : Prop :=
  ∃ pages, c' = { c with pages }

theorem SameShape.refl (c : CodeCache) : SameShape c c :=
  ⟨c.pages, rfl⟩

theorem SameShape.trans {c c' c'' : CodeCache} (h : SameShape c c') (h' : SameShape c' c'') :
    SameShape c c'' := by
  obtain ⟨pages, rfl⟩ := h
  obtain ⟨pages', rfl⟩ := h'
  exact ⟨pages', rfl⟩

theorem sameShape_attempt : SameShape e.cache (e.attempt key g).2.cache := by
  rcases e.attempt_cases key g with ⟨-, f, hattempt⟩ | ⟨p, hp, hrest⟩
  · rw [hattempt]
    exact .refl _
  · have hset (b : CodeBuffer) : SameShape e.cache (e.cache.setBuffer key b) := by
      simp only [CodeCache.setBuffer, hp]
      exact ⟨_, rfl⟩
    rcases hrest with ⟨f, b, -, f', hattempt⟩ | ⟨code, b, -, ⟨f, hattempt⟩ | ⟨c, hup, hattempt⟩⟩
    · rw [hattempt]
      exact hset b
    · rw [hattempt]
      exact hset b
    · obtain ⟨p', table, -, -, rfl⟩ := CodeCache.update_eq_ok hup
      rw [hattempt]
      exact (hset b).trans ⟨_, rfl⟩

theorem lastTry_cases :
    (e.lastTry key g).cache = e.cache ∨ ∃ f, (e.attempt key g).1 = .error f ∧
      (e.lastTry key g).cache = ((e.attempt key g).2.cache.invalidate key (key + 1)).2 := by
  unfold lastTry
  cases hattempt : e.attempt key g with
  | mk r e' =>
    cases r with
    | ok i => exact Or.inl rfl
    | error f =>
      cases f with
      | abort m => exact Or.inl rfl
      | error err =>
        simp only
        split_ifs
        · exact Or.inr ⟨_, rfl, rfl⟩
        · exact Or.inl rfl

theorem sameShape_lastTry : SameShape e.cache (e.lastTry key g).cache := by
  rcases e.lastTry_cases key g with hkeep | ⟨f, -, hclear⟩
  · rw [hkeep]
    exact .refl _
  · rw [hclear]
    exact (e.sameShape_attempt key g).trans ⟨_, rfl⟩

theorem sameShape_after (call : Call) : SameShape e.cache (e.after call).cache := by
  rcases e.after_cases call with ⟨hcache, -⟩ | ⟨-, -, start, stop, hcache⟩ |
    ⟨addr, code, -, key, g, space, -, hcache, -⟩
  · rw [hcache]
    exact .refl _
  · rw [hcache]
    exact ⟨_, rfl⟩
  · rw [hcache]
    exact (sameShape_lastTry { e with space } key g).trans (sameShape_attempt _ key g)

theorem install_snd : ∃ cache stats, (e.install span key g).2.1 = { e with cache, stats } := by
  obtain ⟨cache, hfirst⟩ := e.attempt_snd key g
  unfold install
  rcases hattempt : e.attempt key g with ⟨r, e'⟩
  rw [hattempt] at hfirst
  subst hfirst
  rcases r with (err | m) | i
  · simp only
    split_ifs
    · exact ⟨_, _, rfl⟩
    · obtain ⟨cache', hsecond⟩ := attempt_snd
        ({ e with cache, stats.retries := e.stats.retries + 1 }.clear key (key + 1)).2 key g
      split
      · rename_i hagain
        rw [hagain] at hsecond
        subst hsecond
        exact ⟨_, _, rfl⟩
      · rename_i hagain
        rw [hagain] at hsecond
        subst hsecond
        exact ⟨_, _, rfl⟩
  · exact ⟨_, _, rfl⟩
  · exact ⟨_, _, rfl⟩

theorem entryFor_snd :
    ∃ space cache stats, (e.entryFor span addr code).2.1 = { e with space, cache, stats } := by
  obtain ⟨-, -, space, hgraph⟩ := e.translate_eq span span addr code
  unfold entryFor
  split
  · exact ⟨_, _, _, rfl⟩
  · rename_i key hkey
    simp only
    split_ifs
    · exact ⟨_, _, _, rfl⟩
    · exact ⟨_, _, _, rfl⟩
    · rcases htranslate : e.translate span addr code with ⟨r, e', span'⟩
      rw [htranslate] at hgraph
      subst hgraph
      cases r with
      | error f => exact ⟨_, _, _, rfl⟩
      | ok g =>
        obtain ⟨cache, stats, hinstall⟩ := install_snd { e with space } span' key g
        exact ⟨space, cache, stats, hinstall⟩

theorem explain_snd :
    ∃ space cache stats spans,
      (e.explain addr code).2.2 = { e with space, cache, stats, spans } := by
  unfold explain
  split
  · exact ⟨_, _, _, _, rfl⟩
  · simp only [endSpan]
    obtain ⟨space, hspace⟩ := e.lifted_snd addr code
    unfold explainFrom
    rcases hlift : e.lifted addr code with ⟨r, e'⟩
    rw [hlift] at hspace
    subst hspace
    cases r with
    | error err => exact ⟨_, _, _, _, rfl⟩
    | ok raw =>
      simp only
      split
      · exact ⟨_, _, _, _, rfl⟩
      · rename_i key _ _ g span _
        obtain ⟨cache, stats, hinstall⟩ := install_snd { e with space } span key g
        unfold explainGraph
        split
        · exact ⟨_, _, _, _, rfl⟩
        · split
          · rename_i hdone
            rw [hdone] at hinstall
            exact ⟨space, cache, stats, _, by rw [hinstall]⟩
          · rename_i hdone
            rw [hdone] at hinstall
            exact ⟨space, cache, stats, _, by rw [hinstall]⟩

theorem bound_after {call : Call} (h : ∀ s, call ≠ .bind s) :
    (e.after call).settings = e.settings ∧ (e.after call).bound = e.bound := by
  cases call with
  | bind s => exact absurd rfl (h s)
  | compile addr code =>
    obtain ⟨span, fallbacks, spans, -, hcompile⟩ := e.compile_eq addr code
    obtain ⟨space, cache, stats, hentry⟩ := e.entryFor_snd span addr code
    rw [after, hcompile, hentry]
    exact ⟨rfl, rfl⟩
  | explain addr code =>
    obtain ⟨space, cache, stats, spans, hexplain⟩ := e.explain_snd addr code
    rw [after, hexplain]
    exact ⟨rfl, rfl⟩
  | interpret host addr code =>
    obtain ⟨space, spans, hafter⟩ := e.after_interpret addr code host
    rw [hafter]
    exact ⟨rfl, rfl⟩
  | lookup addr =>
    obtain ⟨stats, hafter⟩ := e.after_lookup addr
    rw [hafter]
    exact ⟨rfl, rfl⟩
  | invalidate start stop =>
    simp only [after, invalidate]
    split_ifs <;> exact ⟨rfl, rfl⟩

theorem settings_after (call : Call) : (e.after call).settings = e.settings := by
  by_cases hcall : ∃ s, call = .bind s
  · obtain ⟨s, rfl⟩ := hcall
    rw [after]
    cases hbind : e.bind s with
    | error err => rfl
    | ok e' =>
      obtain ⟨space, -, ⟨-, rfl⟩ | ⟨-, rfl⟩⟩ := bind_eq_ok hbind <;> rfl
  · exact (e.bound_after (not_exists.mp hcall)).1

theorem filed_eq_some {e : Engine} {call : Call} {f : Filed} (h : e.filed call = some f) :
    f.key = e.key f.addr ∧ f.count ≤ e.pageRoom f.addr := by
  rcases e.after_cases call with ⟨-, hnone⟩ | ⟨-, hnone, -⟩ |
    ⟨addr, code, -, key, g, space, hkey, -, hfiled, -⟩
  · rw [hnone] at h
    cases h
  · rw [hnone] at h
    cases h
  · rw [h] at hfiled
    obtain ⟨s, -, rfl⟩ := Option.map_eq_some_iff.mp hfiled.symm
    exact ⟨(locate_eq_ok hkey).1, min_le_right _ _⟩

/-- An engine keeps its settings and the shape of its cache, and each key is that of its address. -/
structure Descends (e₀ : Engine) (past : List Filed × Engine) : Prop where
  settings : past.2.settings = e₀.settings
  shape : SameShape e₀.cache past.2.cache
  filed : ∀ f ∈ past.1, f.key = e₀.key f.addr ∧ f.count ≤ e₀.pageRoom f.addr

theorem Descends.record {e₀ : Engine} {past : List Filed × Engine} (h : e₀.Descends past)
    (call : Call) : e₀.Descends (record past call) := by
  refine ⟨(past.2.settings_after call).trans h.settings, h.shape.trans (past.2.sameShape_after call),
    ?_⟩
  have hkey (a : UInt64) : past.2.key a = e₀.key a := by rw [key, key, h.settings]
  have hroom (a : UInt64) : past.2.pageRoom a = e₀.pageRoom a := by
    obtain ⟨pages, hpages⟩ := h.shape
    rw [pageRoom, pageRoom, hkey, hpages]
    rfl
  intro f hf
  rcases List.mem_append.mp hf with hnew | hold
  · have hspec := filed_eq_some (Option.mem_toList.mp hnew)
    rwa [hkey, hroom] at hspec
  · exact h.filed f hold

theorem descends_history (e₀ : Engine) (calls : List Call) : e₀.Descends (e₀.history calls) := by
  unfold history
  induction calls using List.reverseRecOn with
  | nil => exact ⟨rfl, .refl _, by simp⟩
  | append_singleton calls call ih =>
    rw [List.foldl_append]
    exact ih.record call

end Dynarec.Engine
