import Dynarec.Proofs.Graph.World

/-!
# Flat memory

Memory as a function from addresses to bytes, with words in it least significant byte first. A word
reads back as far as its bytes go, and accesses that share no byte do not disturb each other. The cells
of the host are such a memory, so a host is a lawful world for the registers of any workspace.
-/
namespace Dynarec

variable {a b : UInt64} {k n : Nat} {xs : List UInt8}

namespace Bytes

theorem toNat_toWordLE_cons (b : UInt8) (bs : List UInt8) :
    (toWordLE (b :: bs)).toNat = (b.toNat + 256 * (toWordLE bs).toNat) % 2 ^ 64 := by
  have hb := b.toNat_lt
  have hshift : (toWordLE bs <<< 8).toNat = 2 ^ 8 * ((toWordLE bs).toNat % 2 ^ 56) := by
    rw [UInt64.toNat_shiftLeft, Nat.shiftLeft_eq, show (8 : UInt64).toNat % 64 = 8 from rfl]
    omega
  rw [toWordLE, UInt64.toNat_or, UInt8.toNat_toUInt64, hshift, Nat.or_comm,
    ← Nat.two_pow_add_eq_or_of_lt hb]
  omega
/-- Bytes of a word put together again are the word, cut to their number. -/
theorem toNat_toWordLE_ofWordLE (n : Nat) (x : UInt64) :
    (toWordLE (ofWordLE n x)).toNat = x.toNat % 2 ^ (8 * n) := by
  induction n generalizing x with
  | zero => simp [ofWordLE, toWordLE, Nat.mod_one]
  | succ n ih =>
    have hx := x.toNat_lt
    have hhigh : (x >>> 8).toNat = x.toNat / 256 := by
      rw [UInt64.toNat_shiftRight, Nat.shiftRight_eq_div_pow]
      rfl
    have hlow : x.toUInt8.toNat = x.toNat % 256 := by simp
    have hrest : x.toNat / 256 % 2 ^ (8 * n) < 2 ^ 56 := by
      refine (Nat.mod_le _ _).trans_lt ?_
      omega
    rw [ofWordLE, toNat_toWordLE_cons, ih, hhigh, hlow, show 8 * (n + 1) = 8 + 8 * n by ring,
      pow_add, Nat.mod_mul]
    exact Nat.mod_eq_of_lt (by omega)

end Bytes

/-- The content of every address. -/
abbrev Memory := UInt64 → UInt8

namespace Memory

def range (m : Memory) (a : UInt64) : Nat → List UInt8
  | 0 => []
  | n + 1 => m a :: range m (a + 1) n

def setRange (m : Memory) (a : UInt64) : List UInt8 → Memory
  | [] => m
  | x :: xs => setRange (Function.update m a x) (a + 1) xs

def read (m : Memory) (a : UInt64) (n : Nat) : UInt64 :=
  Bytes.toWordLE (m.range a n)

/-- Writes the low `n` bytes of a word. -/
def write (m : Memory) (a : UInt64) (n : Nat) (x : UInt64) : Memory :=
  m.setRange a (Bytes.ofWordLE n x)

theorem offset_succ (a : UInt64) (j : Nat) : a + (j + 1).toUInt64 = a + 1 + j.toUInt64 := by
  have : (j + 1).toUInt64 = j.toUInt64 + 1 := UInt64.ofNat_add j 1
  rw [this, UInt64.add_assoc, UInt64.add_comm 1]

theorem setRange_of_ne {m : Memory} (h : ∀ j < xs.length, b ≠ a + j.toUInt64) :
    m.setRange a xs b = m b := by
  induction xs generalizing m a with
  | nil => rfl
  | cons x xs ih =>
    have h0 : b ≠ a := by simpa using h 0 (by simp)
    rw [setRange, ih, Function.update_of_ne h0]
    intro j hj
    rw [← offset_succ]
    exact h (j + 1) (by simpa using hj)

theorem range_congr {m m' : Memory} (h : ∀ j < n, m (a + j.toUInt64) = m' (a + j.toUInt64)) :
    m.range a n = m'.range a n := by
  induction n generalizing a with
  | zero => rfl
  | succ n ih =>
    have h0 : m a = m' a := by simpa using h 0 (by simp)
    rw [range, range, h0, ih]
    intro j hj
    rw [← offset_succ]
    exact h (j + 1) (by omega)

theorem range_setRange {m : Memory} (h : xs.length ≤ 2 ^ 64) :
    (m.setRange a xs).range a xs.length = xs := by
  induction xs generalizing m a with
  | nil => rfl
  | cons x xs ih =>
    rw [List.length_cons] at h
    have h0 : setRange (Function.update m a x) (a + 1) xs a = x := by
      rw [setRange_of_ne, Function.update_self]
      intro j hj he
      have ha := a.toNat_lt
      rw [← offset_succ, ← UInt64.toNat_inj, UInt64.toNat_add, Nat.toUInt64_eq,
        UInt64.toNat_ofNat'] at he
      omega
    rw [setRange, List.length_cons, range, h0, ih (by omega)]

theorem toNat_read_write (m : Memory) (a : UInt64) (hn : n ≤ 2 ^ 64) (x : UInt64) :
    ((m.write a n x).read a n).toNat = x.toNat % 2 ^ (8 * n) := by
  have hrange : (m.write a n x).range a (Bytes.ofWordLE n x).length = Bytes.ofWordLE n x :=
    range_setRange (by simpa using hn)
  rw [Bytes.length_ofWordLE] at hrange
  rw [read, hrange, Bytes.toNat_toWordLE_ofWordLE]

/-- The low bytes of a word are a word of their own. -/
theorem toNat_read_of_le (m : Memory) (a : UInt64) (hk : k ≤ n) (hn : n ≤ 8) :
    (m.read a k).toNat = (m.read a n).toNat % 2 ^ (8 * k) := by
  induction k generalizing a n with
  | zero => simp [read, range, Bytes.toWordLE, Nat.mod_one]
  | succ k ih =>
    obtain ⟨n, rfl⟩ : ∃ n', n = n' + 1 := ⟨n - 1, by omega⟩
    have hrest := ih (a + 1) (n := n) (by omega) (by omega)
    simp only [read, range] at hrest ⊢
    rw [Bytes.toNat_toWordLE_cons, Bytes.toNat_toWordLE_cons, hrest]
    have hb := (m a).toNat_lt
    have hpow : 2 ^ (8 * (k + 1)) = 256 * 2 ^ (8 * k) := by
      rw [show 8 * (k + 1) = 8 + 8 * k by ring, pow_add]
      rfl
    have hdvd : 2 ^ (8 * (k + 1)) ∣ 2 ^ 64 := pow_dvd_pow 2 (by omega)
    have hle := Nat.le_of_dvd (by positivity) hdvd
    generalize (Bytes.toWordLE (m.range (a + 1) n)).toNat = x
    have hx := Nat.mod_lt x (show 0 < 2 ^ (8 * k) by positivity)
    rw [Nat.mod_mod_of_dvd _ hdvd, hpow, Nat.mod_mul, Nat.mod_eq_of_lt (by omega),
      show ((m a).toNat + 256 * x) / 256 = x by omega,
      show ((m a).toNat + 256 * x) % 256 = (m a).toNat by omega]
/-- A word of `n` bytes does not change while bytes apart from it are written. -/
theorem read_write_apart (m : Memory) (h : Apart b k a n) (x : UInt64) :
    (m.write a n x).read b k = m.read b k := by
  rw [read, read, write, range_congr]
  intro i hi
  exact setRange_of_ne fun j hj => h i hi j (by simpa using hj)

end Memory

namespace Cells

theorem range_eq (c : Cells) (a : UInt64) (n : Nat) : c.range a n = Memory.range c.byte a n := by
  induction n generalizing a with
  | zero => rfl
  | succ n ih => rw [range, Memory.range, ih]

theorem byte_setRange (c : Cells) (a : UInt64) (xs : List UInt8) :
    (c.setRange a xs).byte = Memory.setRange c.byte a xs := by
  induction xs generalizing c a with
  | nil => rfl
  | cons x xs ih =>
    rw [setRange, Memory.setRange, ih]
    congr 1
    funext b
    rw [byte_setByte, Function.update_apply]
    simp only [eq_comm]

theorem read_eq (c : Cells) (a : UInt64) (n : Nat) : c.read a n = Memory.read c.byte a n := by
  rw [read, Memory.read, range_eq]

theorem byte_write (c : Cells) (a : UInt64) (n : Nat) (x : UInt64) :
    (c.write a n x).byte = Memory.write c.byte a n x :=
  byte_setRange c a _

end Cells

/-- The bus of a host has a window of its own, so that it does not touch the cells. -/
theorem Host.world_lawful (impl : Func → Option Impl) (w : Workspace) :
    (Host.world impl).Lawful w where
  read_write s a n x hn := by
    show ((s.cells.write a n x).read a n).toNat = _
    rw [Cells.read_eq, Cells.byte_write]
    exact Memory.toNat_read_write _ a (by omega) x
  read_write_apart s a n x b m h := by
    show (s.cells.write a n x).read b m = s.cells.read b m
    rw [Cells.read_eq, Cells.read_eq, Cells.byte_write]
    exact Memory.read_write_apart _ h x
  load_register s n a r _ := by
    have : ((Host.world impl).load s n a).2.cells = s.cells := by
      simp only [Host.world]
      split <;> rfl
    simp only [World.register, Host.world] at this ⊢
    rw [this]
  store_register s n a x r _ := by
    have : ((Host.world impl).store s n a x).2.cells = s.cells := by
      simp only [Host.world]
      split <;> rfl
    simp only [World.register, Host.world] at this ⊢
    rw [this]

end Dynarec
