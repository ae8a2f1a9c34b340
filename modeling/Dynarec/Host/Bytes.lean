/-!
# Bytes of words

Words as byte lists, least or most significant byte first.
-/

namespace Dynarec.Bytes

def ofWordLE : Nat → UInt64 → List UInt8
  | 0, _ => []
  | n + 1, x => x.toUInt8 :: ofWordLE n (x >>> 8)

def toWordLE : List UInt8 → UInt64
  | [] => 0
  | b :: bs => b.toUInt64 ||| (toWordLE bs <<< 8)

@[simp] theorem length_ofWordLE (n : Nat) (x : UInt64) : (ofWordLE n x).length = n := by
  induction n generalizing x with
  | zero => rfl
  | succ n ih => simp [ofWordLE, ih]

def ofWordBE (x : UInt32) : List UInt8 :=
  [(x >>> 24).toUInt8, (x >>> 16).toUInt8, (x >>> 8).toUInt8, x.toUInt8]

end Dynarec.Bytes
