/-!
# Tables of entry points

A table of fixed size maps guest addresses to entry points by open addressing: the slots are tried one
behind the other, starting at a place that the address gives. Slots are never freed one by one, so the
first empty slot on the way ends a search.
-/

namespace Dynarec

structure Slot where
  addr : UInt64
  entry : UInt64
deriving DecidableEq, Inhabited

abbrev EntryTable := Array (Option Slot)

namespace EntryTable

def empty (size : Nat) : EntryTable :=
  Array.replicate size none

def start (t : EntryTable) (addr : UInt64) : Nat :=
  (addr >>> 2).toNat % t.size

def settles (t : EntryTable) (addr : UInt64) (i : Nat) : Bool :=
  match t[i]?.join with
  | some s => s.addr == addr
  | none => true

/-- The first of `n` slots from `i` on at which a search for `addr` ends. Behind the last slot comes the
first. -/
def seekFrom (t : EntryTable) (addr : UInt64) : Nat → Nat → Option Nat
  | 0, _ => none
  | n + 1, i => if t.settles addr i then some i else t.seekFrom addr n ((i + 1) % t.size)

/-- The slot where a search for `addr` ends; none if all slots hold other addresses. -/
def seek (t : EntryTable) (addr : UInt64) : Option Nat :=
  t.seekFrom addr t.size (t.start addr)

def find? (t : EntryTable) (addr : UInt64) : Option UInt64 :=
  match t.seek addr with
  | some i => t[i]?.join.map Slot.entry
  | none => none

/-- Inserts or overwrites; fails if the table is full of other addresses. -/
def insert? (t : EntryTable) (addr entry : UInt64) : Option EntryTable :=
  (t.seek addr).map fun i => t.setIfInBounds i (some ⟨addr, entry⟩)

def count (t : EntryTable) : Nat :=
  t.toList.countP Option.isSome

end EntryTable

end Dynarec
