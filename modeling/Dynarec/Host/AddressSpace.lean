/-!
# Address space planning

An emulated machine needs pages for every range of addresses that its code can touch, and a stack that
overlaps none of them.
-/

namespace Dynarec

structure AddressRange where
  start : UInt64
  stop : UInt64
deriving DecidableEq, Inhabited

namespace AddressRange

def isEmpty (r : AddressRange) : Bool :=
  r.stop ≤ r.start

def pageSize : UInt64 := 0x1000

def pageDown (a : UInt64) : UInt64 :=
  a &&& ~~~(pageSize - 1)

def pageUp (a : UInt64) : UInt64 :=
  (a + pageSize - 1) &&& ~~~(pageSize - 1)

def paged (r : AddressRange) : AddressRange :=
  ⟨pageDown r.start, pageUp r.stop⟩

/-- Joins ranges that touch or overlap; `last` is the range being grown. -/
def join (last : AddressRange) : List AddressRange → List AddressRange
  | [] => [last]
  | r :: rs =>
      if r.start ≤ last.stop then join ⟨last.start, max last.stop r.stop⟩ rs
      else last :: join r rs

def pages (ranges : List AddressRange) : List AddressRange :=
  let sorted := ((ranges.filter fun r => !r.isEmpty).map paged).mergeSort
    fun a b => a.start ≤ b.start
  match sorted with
  | [] => []
  | r :: rs => join r rs

def stackSize : UInt64 := 0x40000

/-- Whether a stack at `base`, with one page behind it, overlaps the range. -/
def meetsStack (base : UInt64) (r : AddressRange) : Bool :=
  base < r.stop && r.start < base + stackSize + pageSize

/-- The places a stack can have: powers of two. -/
def stackBases : List UInt64 :=
  (List.range 26).map fun k => (1 <<< (20 + k) : Nat).toUInt64

def stackBase? (mapped : List AddressRange) : Option UInt64 :=
  stackBases.find? fun base => mapped.all fun r => !meetsStack base r

end AddressRange

end Dynarec
