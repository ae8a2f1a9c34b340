import Dynarec.Engine.Span
import Dynarec.Graph.Simplify
import Dynarec.Graph.Typing
import Dynarec.Guest.Region
import Dynarec.Host.Funcs
import Dynarec.Native.Assemble
import Dynarec.Settings.Basic

/-!
# The engine

The engine finds the code of a guest region in its cache or makes it: the region is lifted, simplified,
checked and assembled into the code buffer of its page. If the buffer or the table of the page is full,
the page is emptied and the region gets a second try. A region never reads past its page, so emptying
the page of an address drops everything that was made from it.
-/

namespace Dynarec

structure Stats where
  hits : Nat := 0
  misses : Nat := 0
  compiles : Nat := 0
  fallbacks : Nat := 0
  retries : Nat := 0
  invalidations : Nat := 0
  executions : Nat := 0
deriving DecidableEq, Inhabited

inductive EngineError where
  | settings (e : SettingsError)
  | space (e : WorkspaceError)
  | cache (e : CacheError)
  | bind (e : Guest.BindError)
  | noState
  | outOfRange (key : UInt64)
  | lift (e : Guest.LiftError)
  | typing (e : TypeError)
  | assemble (e : Native.AssembleError)
  | run (e : RunError)
  | native (r : Report)
deriving DecidableEq

namespace EngineError

def report : EngineError → Report
  | settings e => e.report
  | space e => e.report
  | cache e => e.report
  | bind e => e.report
  | noState => ⟨some .unboundRegister, Fault.unboundRegister.under "no guest state bound"⟩
  | outOfRange key => ⟨some .addressOutOfRange, Fault.addressOutOfRange.under (Text.hexWord key)⟩
  | lift e => e.report
  | typing e => e.report
  | assemble e => e.report
  | run e => e.report
  | native r => r

def isFull (e : EngineError) : Bool :=
  e.report.fault == some .codeBufferOverflow || e.report.fault == some .mapFull

end EngineError

abbrev EngineFailure := Failure EngineError

structure Engine where
  settings : Settings
  space : Workspace
  cache : CodeCache
  bound : Option Guest.State := none
  stats : Stats := {}
  spans : Array Span := #[]

namespace Engine

/-- The function that guest exceptions call. It has no native entry point. -/
def exceptionFunc : Func := ⟨"exception", 0⟩

def create (s : Settings) : Except EngineFailure Engine := do
  s.validate.mapError fun e => .error (.settings e)
  let b := s.space
  let space ← (Workspace.create b.registers b.blocks b.instructions b.params).mapError
    (Failure.map .space)
  let c := s.cache
  let cache ← (CodeCache.create c.pageSize c.pageCount c.bufferSize c.mapSize).mapError
    (Failure.map .cache)
  return { settings := s, space, cache }

def width (e : Engine) : Ty :=
  if e.settings.guest.width = 32 then Ty.i32 else Ty.i64

def lifter (e : Engine) : Guest.Lifter where
  map := ⟨e.settings.guest.base, e.settings.guest.mask⟩
  maxInstructions := e.settings.guest.maxInstructions
  exception := some exceptionFunc

def key (e : Engine) (addr : UInt64) : UInt64 :=
  addr &&& e.settings.guest.mask

def pageRoom (e : Engine) (addr : UInt64) : Nat :=
  e.cache.pageSize - (e.key addr).toNat % e.cache.pageSize

def endSpan (e : Engine) (s : Span) : Engine :=
  { e with spans := e.spans.push s }

def clear (e : Engine) (start stop : UInt64) : Nat × Engine :=
  let (n, cache) := e.cache.invalidate start stop
  (n, { e with cache, stats.invalidations := e.stats.invalidations + n })

/-- Binds the registers of a guest. Code made for another guest is dropped: it names that guest's
cells. -/
def bind (e : Engine) (s : Guest.State) : Except EngineError Engine := do
  let space ← (s.bind e.space e.width).mapError .bind
  let e := { e with space }
  let e :=
    match e.bound with
    | some old =>
        if old = s then e
        else (e.clear 0 (e.cache.pageSize.toUInt64 * e.cache.pageCount.toUInt64)).2
    | none => e
  return { e with bound := some s }

def lookup (e : Engine) (addr : UInt64) : UInt64 × Engine :=
  let entry := e.cache.entry (e.key addr)
  (entry, if entry = 0 then { e with stats.misses := e.stats.misses + 1 }
    else { e with stats.hits := e.stats.hits + 1 })

/-- The key of a guest address, which must lie in a page; a guest must be bound. -/
def locate (e : Engine) (addr : UInt64) : Except EngineError UInt64 :=
  match e.bound with
  | none => .error .noState
  | some _ =>
      let key := e.key addr
      match e.cache.page? key with
      | none => .error (.outOfRange key)
      | some _ => .ok key

def lifted (e : Engine) (addr : UInt64) (code : List UInt8) : Except EngineError Graph × Engine :=
  let (r, space) := e.lifter.lift e.space.reset addr (code.take (e.pageRoom addr))
  (r.mapError .lift, { e with space })

/-- The graph to be run or assembled: simplified, and checked afterwards. -/
def refined (span : Span) (raw : Graph) : Except EngineFailure Graph × Span :=
  let (g, done) := raw.sweep
  if !done then (.error (.abort none), span)
  else
    let span := span.event "optimized" [("ir.blocks", .number raw.blocks.size),
      ("ir.vars.before", .number raw.varCount), ("ir.vars.after", .number g.varCount)]
    match g.typecheck with
    | .accepted => (.ok g, span)
    | .rejected err => (.error (.error (.typing err)), span)
    | .aborted => (.error (.abort none), span)

def translate (e : Engine) (span : Span) (addr : UInt64) (code : List UInt8) :
    Except EngineFailure Graph × Engine × Span :=
  match e.lifted addr code with
  | (.error err, e) => (.error (.error err), e, span)
  | (.ok raw, e) =>
      let (r, span) := refined span raw
      (r, e, span)

structure Installed where
  entry : UInt64
  code : Native.Assembled

/-- Assembles a graph behind the code of its page and enters it in the table. -/
def attempt (e : Engine) (key : UInt64) (g : Graph) : Except EngineFailure Installed × Engine :=
  match e.cache.page? key with
  | none => (.error (.error (.outOfRange key)), e)
  | some p =>
      match Native.assemble e.space (e.cache.page p).buffer g with
      | (.error f, buffer) =>
          (.error (f.map .assemble), { e with cache := e.cache.setBuffer key buffer })
      | (.ok code, buffer) =>
          let cache := e.cache.setBuffer key buffer
          let entry := cache.entryAt p code.offset
          match cache.update key entry with
          | .error f => (.error (f.map .cache), { e with cache })
          | .ok cache => (.ok ⟨entry, code⟩, { e with cache })

def note (e : Engine) (span : Span) (i : Installed) : Engine × Span :=
  ({ e with stats.compiles := e.stats.compiles + 1 },
    ((span.fact "x86.bytes" (.number i.code.length)).fact "x86.frame" (.number i.code.frame)).fact
      "x86.spilled" (.number i.code.spilled))

/-- Notes that the code of a page could not be written where its buffer stands. -/
def interrupted (e : Engine) (span : Span) (key : UInt64) : Span :=
  match e.cache.buffer? key with
  | some b => if b.isMisplaced 1 then span.exception (.plain b.misplacement) else span
  | none => span

/-- Makes the code of a graph. A full page is emptied, once. -/
def install (e : Engine) (span : Span) (key : UInt64) (g : Graph) :
    Except EngineFailure Installed × Engine × Span :=
  match e.attempt key g with
  | (.ok i, e) => (.ok i, e.note span i)
  | (.error (.abort m), e) => (.error (.abort m), e, e.interrupted span key)
  | (.error (.error err), e) =>
      if !err.isFull then (.error (.error err), e, span)
      else
        let e := { e with stats.retries := e.stats.retries + 1 }
        let span := span.event "page cleared" [("reason", .text (Report.namePart err.report.text))]
        let (_, e) := e.clear key (key + 1)
        match e.attempt key g with
        | (.ok i, e) => (.ok i, e.note span i)
        | (.error f, e) => (.error f, e, span)

def entryFor (e : Engine) (span : Span) (addr : UInt64) (code : List UInt8) :
    Except EngineFailure UInt64 × Engine × Span :=
  match e.locate addr with
  | .error err => (.error (.error err), e, span)
  | .ok key =>
      let entry := e.cache.entry key
      if !e.cache.canReach key then (.error (.abort none), e, span)
      else if entry ≠ 0 then (.ok entry, e, span.fact "cache.hit" (.flag true))
      else
        match e.translate span addr code with
        | (.error f, e, span) => (.error f, e, span)
        | (.ok g, e, span) =>
            let (r, e, span) := e.install span key g
            (r.map Installed.entry, e, span)

def compile (e : Engine) (addr : UInt64) (code : List UInt8) : Except EngineFailure UInt64 × Engine :=
  let span : Span := {
    name := "recompiler.Compile"
    facts := [("mips.addr", .text (Text.hexWord addr)), ("mips.bytes", .number code.length)] }
  match e.entryFor span addr code with
  | (.ok entry, e, span) => (.ok entry, e.endSpan span)
  | (.error (.abort m), e, span) => (.error (.abort m), e.endSpan span)
  | (.error (.error err), e, span) =>
      let e := if err.report.isFallback then { e with stats.fallbacks := e.stats.fallbacks + 1 } else e
      (.error (.error err), e.endSpan (span.fail err.report))

def addrSpan (name : String) (addr : UInt64) : Span :=
  { name, facts := [("mips.addr", .text (Text.hexWord addr))] }

/-- Compiles a region if it has no code yet, and calls its code. -/
def execute (e : Engine) (addr : UInt64) (code : List UInt8) : Except EngineFailure Unit × Engine :=
  let isReached := e.cache.canReach (e.key addr)
  let (entry, e) := if isReached then e.lookup addr else (0, e)
  let (r, e) :=
    if !isReached then (.error (.abort none), e)
    else if entry = 0 then e.compile addr code
    else (.ok entry, e)
  match r with
  | .error f => (.error f, e)
  | .ok entry =>
      let span := addrSpan "recompiler.Execute" addr
      match Host.callNative entry with
      | .error r => (.error (.error (.native r)), e.endSpan (span.exception r))
      | .ok () => (.ok (), { e.endSpan span with stats.executions := e.stats.executions + 1 })

/-- Guest exceptions enter the handler of the bound guest. -/
def calls (e : Engine) : Func → Option Host.Impl := fun _ =>
  some fun args h =>
    match e.bound with
    | some s => (0, { h with cells := s.raise h.cells ((args[0]?).getD 0) ((args[1]?).getD 0) })
    | none => (0, h)

def interpret (e : Engine) (h : Host) (addr : UInt64) (code : List UInt8) :
    Except EngineFailure Unit × Engine × Host :=
  let span := addrSpan "recompiler.Interpret" addr
  match e.bound with
  | none => (.error (.error .noState), e.endSpan span, h)
  | some _ =>
      match e.translate span addr code with
      | (.error (.error err), e, span) => (.error (.error err), e.endSpan (span.fail err.report), h)
      | (.error (.abort m), e, span) => (.error (.abort m), e.endSpan span, h)
      | (.ok g, e, span) =>
          match g.run (Host.world e.calls) e.space h with
          | (.exited, h) => (.ok (), e.endSpan span, h)
          | (.failed err, h) => (.error (.error (.run err)), e.endSpan (span.fail err.report), h)
          | (.aborted, h) => (.error (.abort none), e.endSpan span, h)

def invalidate (e : Engine) (start stop : UInt64) : Nat × Engine :=
  if stop ≤ start then (0, e) else e.clear (e.key start) (e.key start + (stop - start))

def close (e : Engine) : Engine :=
  { e with cache := e.cache.close }

end Engine

end Dynarec
