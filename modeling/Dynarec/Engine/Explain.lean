import Dynarec.Engine.Basic
import Dynarec.Graph.Listing
import Dynarec.Machine.Listing

/-!
# Explanations

A region is compiled anew, and every form it takes on the way is listed. What was reached before a
failure is kept.
-/

namespace Dynarec

structure Explanation where
  raw : String := ""
  outline : String := ""
  simplified : String := ""
  homes : Option (List String) := none
  entry : UInt64 := 0
  assembly : List String := []
deriving Inhabited

namespace Engine

def codeBytes (e : Engine) (key : UInt64) (code : Native.Assembled) : List UInt8 :=
  match e.cache.buffer? key with
  | some b => b.extract code.offset (code.offset + code.length)
  | none => []

def explainGraph (e : Engine) (span : Span) (key : UInt64) (x : Explanation) (g : Graph) :
    Explanation × Option EngineFailure × Engine × Span :=
  let x := { x with simplified := g.listing e.space.registerName }
  match Native.Homes.ofGraph g with
  | .error err => (x, some (.error (.assemble (.home err))), e, span)
  | .ok homes =>
      let x := { x with homes := some homes.texts }
      match e.install span key g with
      | (.error f, e, span) => (x, some f, e, span)
      | (.ok i, e, span) =>
          ({ x with
              entry := i.entry
              assembly := Machine.listing i.entry (e.codeBytes key i.code) }, none, e, span)

def explainFrom (e : Engine) (span : Span) (key addr : UInt64) (code : List UInt8) :
    Explanation × Option EngineFailure × Engine × Span :=
  match e.lifted addr code with
  | (.error err, e) => ({}, some (.error err), e, span)
  | (.ok raw, e) =>
      let named := e.space.registerName
      let x : Explanation := { raw := raw.listing named, outline := raw.outlineText named }
      match refined span raw with
      | (.error f, span) => (x, some f, e, span)
      | (.ok g, span) => e.explainGraph span key x g

/-- Compiles a region, replacing code that is in the cache, and lists each stage. There is nothing to
list when the region has no place in the cache. -/
def explain (e : Engine) (addr : UInt64) (code : List UInt8) :
    Option Explanation × Option EngineFailure × Engine :=
  let span := addrSpan "recompiler.Explain" addr
  match e.locate addr with
  | .error err => (none, some (.error err), e.endSpan span)
  | .ok key =>
      let (x, f, e, span) := e.explainFrom span key addr code
      (some x, f, e.endSpan span)

end Engine

end Dynarec
