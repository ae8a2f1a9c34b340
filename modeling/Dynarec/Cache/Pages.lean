import Std.Data.HashMap
import Dynarec.Cache.Table
import Dynarec.Machine.CodeBuffer

/-!
# Code caches

Guest memory is divided into pages. Each page owns a code buffer, which is a part of one region, and a
table of the entry points in it. Code is never removed one by one: a page is emptied as a whole. A page
that was never used since is not stored.
-/

namespace Dynarec

open Machine (CodeBuffer)

inductive CacheError where
  | pageSize (size : Int)
  | capacity (pageCount bufferSize mapSize : Int)
  | region (reason : String)
  | outOfRange (addr : UInt64)
  | full (page : Nat) (addr : UInt64)
deriving DecidableEq

namespace CacheError

def fault : CacheError → Fault
  | pageSize _ => .badPageSize
  | capacity _ _ _ => .badCapacity
  | region _ => .allocFailed
  | outOfRange _ => .addressOutOfRange
  | full _ _ => .mapFull

def detail : CacheError → String
  | pageSize n => toString n
  | capacity p b m =>
      "page_count=" ++ toString p ++ " buffer_size=" ++ toString b ++ " map_size=" ++ toString m
  | region reason => reason
  | outOfRange addr => Text.hexWord addr
  | full page addr => "page " ++ toString page ++ ", address " ++ Text.hexWord addr

def report (e : CacheError) : Report :=
  (Report.ofFault e.fault).remark e.detail

end CacheError

structure Page where
  buffer : CodeBuffer
  table : EntryTable
deriving Inhabited

structure CodeCache where
  pageShift : Nat
  /-- No page is left once the region is given back. -/
  pageCount : Nat
  bufferSize : Nat
  mapSize : Nat
  /-- The slots that all tables share: what all pages need, as a machine word. -/
  slots : Nat
  pages : Std.HashMap Nat Page := {}
  isOpen : Bool := true

namespace CodeCache

def minPageSize : Nat := 4096

def isPageSize (n : Int) : Bool :=
  minPageSize ≤ n && n.toNat &&& (n.toNat - 1) == 0

def wordProduct (a b : Int) : Int :=
  Host.signedWord (a * b)

def maxRegion : Int := 0x800000000000

def regionBase : UInt64 := 0x7f0000000000

/-- A page takes 32 bytes in one table and a slot 24 in another. The buffers of all pages must lie in the
region, also where its size was computed with a wrap. -/
def create (pageSize pageCount bufferSize mapSize : Int) : Except (Failure CacheError) CodeCache :=
  let slots := wordProduct pageCount mapSize
  if !isPageSize pageSize then .error (.error (.pageSize pageSize))
  else if pageCount ≤ 0 ∨ bufferSize ≤ 0 ∨ mapSize ≤ 0 then
    .error (.error (.capacity pageCount bufferSize mapSize))
  else if wordProduct pageCount bufferSize ≤ 0 then .error (.error (.region "invalid argument"))
  else if maxRegion < wordProduct pageCount bufferSize then
    .error (.error (.region "cannot allocate memory"))
  else if !Host.canAllocate pageCount 32 ∨ !Host.canAllocate slots 24 ∨
      wordProduct pageCount bufferSize ≠ pageCount * bufferSize then .error (.abort none)
  else
    .ok {
      pageShift := pageSize.toNat.log2
      pageCount := pageCount.toNat
      bufferSize := bufferSize.toNat
      mapSize := mapSize.toNat
      slots := slots.toNat }

def pageSize (c : CodeCache) : Nat :=
  1 <<< c.pageShift

def page? (c : CodeCache) (addr : UInt64) : Option Nat :=
  let p := addr.toNat >>> c.pageShift
  if p < c.pageCount then some p else none

def emptyPage (c : CodeCache) : Page :=
  ⟨{ capacity := c.bufferSize }, EntryTable.empty c.mapSize⟩

def page (c : CodeCache) (p : Nat) : Page :=
  match c.pages[p]? with
  | some page => page
  | none => c.emptyPage

def setPage (c : CodeCache) (p : Nat) (page : Page) : CodeCache :=
  { c with pages := c.pages.insert p page }

def entryAt (c : CodeCache) (p offset : Nat) : UInt64 :=
  regionBase + (p * c.bufferSize + offset).toUInt64

def hasTable (c : CodeCache) (p : Nat) : Bool :=
  (p + 1) * c.mapSize ≤ c.slots

/-- Whether the table for an address, if it has a page, lies in the slots that there are. To search
another table is an abort. -/
def canReach (c : CodeCache) (addr : UInt64) : Bool :=
  (c.page? addr).all c.hasTable

def update (c : CodeCache) (addr entry : UInt64) : Except (Failure CacheError) CodeCache :=
  match c.page? addr with
  | none => .error (.error (.outOfRange addr))
  | some p =>
      let page := c.page p
      if !c.hasTable p then .error (.abort none)
      else
        match page.table.insert? addr entry with
        | none => .error (.error (.full p addr))
        | some table => .ok (c.setPage p { page with table })

def entry (c : CodeCache) (addr : UInt64) : UInt64 :=
  match c.page? addr with
  | none => 0
  | some p => if c.hasTable p then ((c.page p).table.find? addr).getD 0 else 0

def buffer? (c : CodeCache) (addr : UInt64) : Option CodeBuffer :=
  (c.page? addr).map fun p => (c.page p).buffer

def setBuffer (c : CodeCache) (addr : UInt64) (buffer : CodeBuffer) : CodeCache :=
  match c.page? addr with
  | none => c
  | some p => c.setPage p { c.page p with buffer }

/-- The pages that overlap the addresses from `start` up to, not including, `stop`: the first one and
the one behind the last. -/
def pageRange (c : CodeCache) (start stop : UInt64) : Nat × Nat :=
  if stop ≤ start then (0, 0)
  else
    (start.toNat >>> c.pageShift, min ((stop - 1).toNat >>> c.pageShift + 1) c.pageCount)

def canInvalidate (c : CodeCache) (start stop : UInt64) : Bool :=
  let (first, last) := c.pageRange start stop
  last ≤ first || c.hasTable first

/-- Empties the pages that overlap a range of addresses, and counts them. -/
def invalidate (c : CodeCache) (start stop : UInt64) : Nat × CodeCache :=
  let (first, last) := c.pageRange start stop
  (last - first, { c with pages := c.pages.filter fun p _ => p < first || last ≤ p })

def entries (c : CodeCache) : Nat :=
  c.pages.fold (fun n _ page => n + page.table.count) 0

def close (c : CodeCache) : CodeCache :=
  { c with pageCount := 0, isOpen := false }

end CodeCache

end Dynarec
