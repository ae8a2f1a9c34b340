/-!
# Room on the host

A table on the host has at most 2^48 bytes. A count is a signed machine word, which a caller may have
computed with a wrap, so it can also be negative.
-/

namespace Dynarec.Host

def maxAllocation : Int := 0x1000000000000

def canAllocate (count : Int) (size : Nat) : Bool :=
  0 ≤ count && count * size ≤ maxAllocation

def signedWord (n : Int) : Int :=
  n.bmod (1 <<< 64)

end Dynarec.Host
