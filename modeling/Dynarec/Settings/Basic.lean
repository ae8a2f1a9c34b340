import Dynarec.Cache.Pages
import Dynarec.Guest.Register
import Dynarec.Log.Level
import Dynarec.Text.Quoted

/-!
# Settings

The sizes of the workspace and of the code cache, how guest addresses and registers are treated, and
what is logged. `Settings.validate` names the first setting that is out of range.
-/

namespace Dynarec

structure SpaceSettings where
  registers : Int := Guest.Register.count
  blocks : Int := 1024
  instructions : Int := 8192
  params : Int := 256
deriving DecidableEq, Inhabited

structure CacheSettings where
  pageSize : Int := 4096
  pageCount : Int := 2048
  bufferSize : Int := 16384
  mapSize : Int := 64
deriving DecidableEq, Inhabited

structure GuestSettings where
  width : Int := 64
  base : UInt64 := 0
  mask : UInt64 := 0x7fffff
  maxInstructions : Int := 256
deriving DecidableEq, Inhabited

structure LogSettings where
  level : String := "info"
  modules : String := ""
deriving DecidableEq, Inhabited

/-- The defaults cover a guest of eight megabytes. -/
structure Settings where
  space : SpaceSettings := {}
  cache : CacheSettings := {}
  guest : GuestSettings := {}
  log : LogSettings := {}
deriving DecidableEq, Inhabited

inductive SettingsError where
  | space (s : SpaceSettings)
  | pageSize (n : Int)
  | cache (c : CacheSettings)
  | width (n : Int)
  | level (name : String)
  | module (name : String)
deriving DecidableEq

def fieldsText (fields : List (String × Int)) : String :=
  "\x7b" ++ " ".intercalate (fields.map fun (name, n) => name ++ ":" ++ toString n) ++ "\x7d"

namespace SettingsError

def fault : SettingsError → Fault
  | space _ | cache _ => .badCapacity
  | pageSize _ => .badPageSize
  | width _ | level _ | module _ => .unknownConfig

def detail : SettingsError → String
  | space s =>
      "backend " ++ fieldsText [("Registers", s.registers), ("Blocks", s.blocks),
        ("Instructions", s.instructions), ("Params", s.params)]
  | pageSize n => "page size " ++ toString n
  | cache c =>
      "cache " ++ fieldsText [("PageSize", c.pageSize), ("PageCount", c.pageCount),
        ("BufferSize", c.bufferSize), ("MapSize", c.mapSize)]
  | width n => "gpr width " ++ toString n
  | level name => "invalid level: " ++ name
  | module name => "log module " ++ Text.quote name

def report (e : SettingsError) : Report :=
  ⟨some e.fault, e.fault.under e.detail⟩

end SettingsError

namespace Settings

/-- Every capacity must be positive, but a workspace may have no room for parameters. It needs a place
for each guest register. -/
def validate (s : Settings) : Except SettingsError Unit :=
  let b := s.space
  let c := s.cache
  if b.registers < Guest.Register.count ∨ b.blocks ≤ 0 ∨ b.instructions ≤ 0 ∨ b.params < 0 then
    .error (.space b)
  else if !CodeCache.isPageSize c.pageSize then .error (.pageSize c.pageSize)
  else if c.pageCount ≤ 0 ∨ c.bufferSize ≤ 0 ∨ c.mapSize ≤ 0 then .error (.cache c)
  else if s.guest.width ≠ 32 ∧ s.guest.width ≠ 64 then .error (.width s.guest.width)
  else if (Log.Level.ofText? s.log.level).isNone then .error (.level s.log.level)
  else
    match (Log.moduleList s.log.modules).find? fun m => !Log.modules.contains m with
    | some m => .error (.module m)
    | none => .ok ()

end Settings

end Dynarec
