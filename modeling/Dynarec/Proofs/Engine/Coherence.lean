import Dynarec.Proofs.Engine.Storage

/-!
# Coherence with guest memory

The cache knows a guest address by its key, the address under a mask. Invalidating a range of guest
addresses empties the pages from that of the key of its start on, over the length of the range. Code
that was made from a byte of the range is dropped, unless its page lies before the page where the
clearing starts. That happens only if the range runs over a multiple of the size that the mask leaves.
-/
namespace Dynarec

open CodeCache Nat

namespace CodeCache

theorem entry_invalidate (c : CodeCache) (start stop x : UInt64) :
    (c.invalidate start stop).2.entry x =
      if Overlaps c.pageShift start stop (x.toNat >>> c.pageShift) then 0 else c.entry x := by
  have hreach : (c.invalidate start stop).2.canReach x = c.canReach x := rfl
  rw [entry_eq_find?, entry_eq_find?, find?_invalidate, hreach]
  split_ifs <;> rfl

end CodeCache

namespace Engine

variable {e : Engine} {k : Nat} {a b start stop : UInt64} {i : Nat}

theorem add_div_of_lt {r n i : Nat} (h : i < n - r % n) : (r + i) / n = r / n := by
  have hpos : 0 < n := by omega
  have hsplit : r + i = (r % n + i) + n * (r / n) := by
    have := mod_add_div r n
    omega
  rw [hsplit, add_mul_div_left _ _ hpos, div_eq_of_lt (by omega), zero_add]

section Keys

variable (hk : k ≤ 64) (hmask : e.settings.guest.mask.toNat = 2 ^ k - 1) (hi : i < e.pageRoom a)
  (hstart : start ≤ a + i.toUInt64)

include hmask

theorem toNat_key (a : UInt64) : (e.key a).toNat = a.toNat % 2 ^ k := by
  rw [key, UInt64.toNat_and, hmask, and_two_pow_sub_one_eq_mod]

theorem toNat_clear (h : start < stop) :
    (e.key start + (stop - start)).toNat = start.toNat % 2 ^ k + (stop.toNat - start.toNat) := by
  have hle : start.toNat ≤ stop.toNat := (UInt64.lt_iff_toNat_lt.mp h).le
  have hkey : start.toNat % 2 ^ k ≤ start.toNat := mod_le _ _
  have hbound := stop.toNat_lt
  rw [UInt64.toNat_add, toNat_key hmask, UInt64.toNat_sub_of_le _ _ (UInt64.le_iff_toNat_le.mpr hle),
    mod_eq_of_lt (by omega)]

theorem key_le_clear (hstart : start ≤ b) (hstop : b < stop) :
    (e.key b).toNat ≤ (e.key start + (stop - start) - 1).toNat := by
  have hend := toNat_clear hmask (UInt64.lt_of_le_of_lt hstart hstop)
  rw [UInt64.le_iff_toNat_le] at hstart
  rw [UInt64.lt_iff_toNat_lt] at hstop
  have hpred : (e.key start + (stop - start) - 1).toNat =
      start.toNat % 2 ^ k + (stop.toNat - start.toNat) - 1 := by
    rw [UInt64.toNat_sub_of_le, hend]
    · rfl
    · rw [UInt64.le_iff_toNat_le, hend]
      change 1 ≤ _
      omega
  have hkey : b.toNat % 2 ^ k ≤ start.toNat % 2 ^ k + (b.toNat - start.toNat) := by
    calc b.toNat % 2 ^ k
        = (start.toNat % 2 ^ k + (b.toNat - start.toNat)) % 2 ^ k := by
          rw [Nat.mod_add_mod, Nat.add_sub_cancel' hstart]
      _ ≤ start.toNat % 2 ^ k + (b.toNat - start.toNat) := Nat.mod_le _ _
  rw [toNat_key hmask, hpred]
  omega

include hk hi

theorem page_key_add :
    (e.key (a + i.toUInt64)).toNat >>> e.cache.pageShift = (e.key a).toNat >>> e.cache.pageShift := by
  have hword : (a + i.toUInt64).toNat % 2 ^ k = (a.toNat + i) % 2 ^ k := by
    rw [UInt64.toNat_add, UInt64.toNat_ofNat', Nat.add_mod_mod, Nat.mod_mod_of_dvd _ (pow_dvd_pow 2 hk)]
  rw [pageRoom, pageSize, Nat.one_shiftLeft, toNat_key hmask] at hi
  rw [toNat_key hmask, toNat_key hmask, hword, Nat.shiftRight_eq_div_pow, Nat.shiftRight_eq_div_pow]
  rcases le_total k e.cache.pageShift with hsmall | hlarge
  · -- all keys lie in the first page
    have hzero (x : Nat) : x % 2 ^ k / 2 ^ e.cache.pageShift = 0 :=
      Nat.div_eq_of_lt ((Nat.mod_lt x (Nat.two_pow_pos k)).trans_le
        (Nat.pow_le_pow_right Nat.two_pos hsmall))
    rw [hzero, hzero]
  · -- the end of the page is not behind the last key
    have hdvd : 2 ^ e.cache.pageShift ∣ 2 ^ k := pow_dvd_pow 2 hlarge
    have hsame := add_div_of_lt hi
    have hpage : (a.toNat % 2 ^ k + i) / 2 ^ e.cache.pageShift < 2 ^ k / 2 ^ e.cache.pageShift := by
      rw [hsame]
      exact Nat.div_lt_div_of_lt_of_dvd hdvd (Nat.mod_lt _ (Nat.two_pow_pos k))
    have hlt : a.toNat % 2 ^ k + i < 2 ^ k := by
      calc a.toNat % 2 ^ k + i
          < 2 ^ k / 2 ^ e.cache.pageShift * 2 ^ e.cache.pageShift :=
            (Nat.div_lt_iff_lt_mul (Nat.two_pow_pos _)).mp hpage
        _ = 2 ^ k := Nat.div_mul_cancel hdvd
    rw [← Nat.mod_add_mod, Nat.mod_eq_of_lt hlt, hsame]

include hstart

/-- Which pages with code from the range are cleared. -/
theorem overlaps_clear (hstop : a + i.toUInt64 < stop) :
    Overlaps e.cache.pageShift (e.key start) (e.key start + (stop - start))
        ((e.key a).toNat >>> e.cache.pageShift) ↔
      (e.key start).toNat >>> e.cache.pageShift ≤ (e.key a).toNat >>> e.cache.pageShift := by
  have hlt : start < stop := UInt64.lt_of_le_of_lt hstart hstop
  have hkeys : e.key start < e.key start + (stop - start) := by
    have := UInt64.lt_iff_toNat_lt.mp hlt
    rw [UInt64.lt_iff_toNat_lt, toNat_clear hmask hlt, toNat_key hmask]
    omega
  have hlast : (e.key a).toNat >>> e.cache.pageShift ≤
      (e.key start + (stop - start) - 1).toNat >>> e.cache.pageShift := by
    rw [← page_key_add hk hmask hi, shiftRight_eq_div_pow, shiftRight_eq_div_pow]
    exact Nat.div_le_div_right (key_le_clear hmask hstart hstop)
  rw [overlaps_iff]
  exact ⟨fun h => h.2.1, fun h => ⟨hkeys, h, hlast⟩⟩

/-- A range that does not run over a multiple of `2 ^ k` before a byte starts in its page or before. -/
theorem page_start_le (hsame : start.toNat / 2 ^ k = (a + i.toUInt64).toNat / 2 ^ k) :
    (e.key start).toNat >>> e.cache.pageShift ≤ (e.key a).toNat >>> e.cache.pageShift := by
  rw [← page_key_add hk hmask hi, shiftRight_eq_div_pow, shiftRight_eq_div_pow,
    toNat_key hmask, toNat_key hmask]
  refine Nat.div_le_div_right ?_
  have hsplit := Nat.div_add_mod start.toNat (2 ^ k)
  have hsplit' := div_add_mod (a + i.toUInt64).toNat (2 ^ k)
  rw [UInt64.le_iff_toNat_le] at hstart
  rw [hsame] at hsplit
  omega

end Keys

theorem lookup_invalidate_fst (e : Engine) (h : start < stop) (a : UInt64) :
    ((e.invalidate start stop).2.lookup a).1 =
      if Overlaps e.cache.pageShift (e.key start) (e.key start + (stop - start))
        ((e.key a).toNat >>> e.cache.pageShift) then 0 else (e.lookup a).1 := by
  rw [invalidate, if_neg (UInt64.not_le.mpr h)]
  exact e.cache.entry_invalidate _ _ (e.key a)

/-- What was filed last under the key of an address was made from no more bytes than its page has. -/
theorem count_le_pageRoom {e₀ : Engine} {calls : List Call} {f : Filed}
    (hf : latest? (e₀.history calls).1 (e₀.key a) = some f) :
    f.count ≤ (e₀.history calls).2.pageRoom a := by
  have hpast := e₀.descends_history calls
  obtain ⟨hkey, hcount⟩ := hpast.filed f (List.mem_of_find?_eq_some hf)
  have hsame : f.key = e₀.key a := by simpa using List.find?_some hf
  obtain ⟨pages, hshape⟩ := hpast.shape
  rw [pageRoom, key, hpast.settings, hshape]
  rw [pageRoom, ← hkey, hsame] at hcount
  exact hcount

/-- A region with a byte in an invalidated range is dropped, unless its page lies before the page of the
start of the range. It is always dropped if the range does not run over a multiple of `2 ^ k` on its
way to the byte. -/
theorem lookup_invalidate {s : Settings} {e₀ : Engine} (h : create s = .ok e₀) (hk : k ≤ 64)
    (hmask : s.guest.mask.toNat = 2 ^ k - 1) (calls : List Call) {f : Filed}
    (hf : latest? (e₀.history calls).1 (e₀.key a) = some f) (hi : i < f.count)
    (hstart : start ≤ a + i.toUInt64) (hstop : a + i.toUInt64 < stop) :
    ((((e₀.history calls).2.invalidate start stop).2.lookup a).1 = 0 ↔
      ((e₀.history calls).2.lookup a).1 = 0 ∨
        (e₀.key start).toNat / e₀.cache.pageSize ≤ (e₀.key a).toNat / e₀.cache.pageSize) ∧
    (start.toNat / 2 ^ k = (a + i.toUInt64).toNat / 2 ^ k →
      (((e₀.history calls).2.invalidate start stop).2.lookup a).1 = 0) := by
  have hpast := e₀.descends_history calls
  have hroom : i < (e₀.history calls).2.pageRoom a := hi.trans_le (count_le_pageRoom hf)
  have hmask' : (e₀.history calls).2.settings.guest.mask.toNat = 2 ^ k - 1 := by
    rw [hpast.settings, (create_eq_ok h).2.1, hmask]
  have hkey (x : UInt64) : (e₀.history calls).2.key x = e₀.key x := by rw [key, key, hpast.settings]
  have hshift : (e₀.history calls).2.cache.pageShift = e₀.cache.pageShift := by
    obtain ⟨pages, hshape⟩ := hpast.shape
    rw [hshape]
  have hclear := overlaps_clear hk hmask' hroom hstart hstop
  have hfst := (e₀.history calls).2.lookup_invalidate_fst (UInt64.lt_of_le_of_lt hstart hstop) a
  constructor
  · rw [hfst, CodeCache.pageSize, Nat.one_shiftLeft, ← Nat.shiftRight_eq_div_pow,
      ← Nat.shiftRight_eq_div_pow, ← hkey, ← hkey, ← hshift, ← hclear]
    split_ifs with hover
    · simp [hover]
    · simp [hover]
  · intro hsame
    rw [hfst, if_pos (hclear.mpr (page_start_le hk hmask' hroom hstart hsame))]

/-- A region that returns, compiled at the first address whose key is zero again. -/
def wrapped : List Call :=
  [.bind ⟨0⟩, .compile 0x800000 [0x03, 0xe0, 0, 8, 0, 0, 0, 0]]

theorem wrapped_filed : ∃ e₀ f, create {} = .ok e₀ ∧
    latest? (e₀.history wrapped).1 (e₀.key 0x800000) = some f ∧ f.addr = 0x800000 ∧ f.count = 8 ∧
    ((e₀.history wrapped).2.lookup 0x800000).1 ≠ 0 := by
  cases h : create {} with
  | error f =>
    have hok : (create {}).isOk = true := by decide +kernel
    rw [h] at hok
    cases hok
  | ok e₀ =>
    have hrun : (create {}).toOption.map (fun e₀ =>
        ((latest? (e₀.history wrapped).1 (e₀.key 0x800000)).map fun f => (f.addr, f.count),
          ((e₀.history wrapped).2.lookup 0x800000).1 != 0)) =
        some (some (0x800000, 8), true) := by decide +kernel
    simp only [h, Except.toOption, Option.map_some, Option.some.injEq, Prod.mk.injEq, bne_iff_ne] at hrun
    obtain ⟨f, hf, hsite⟩ := Option.map_eq_some_iff.mp hrun.1
    simp only [Prod.mk.injEq] at hsite
    exact ⟨e₀, f, rfl, hf, hsite.1, hsite.2, hrun.2⟩

/-- The range of its bytes drops it. -/
theorem lookup_invalidate_wrapped : ∃ e₀ f, create {} = .ok e₀ ∧
    latest? (e₀.history wrapped).1 (e₀.key 0x800000) = some f ∧ f.count = 8 ∧
    ((e₀.history wrapped).2.lookup 0x800000).1 ≠ 0 ∧
    (((e₀.history wrapped).2.invalidate 0x800000 0x800008).2.lookup 0x800000).1 = 0 := by
  obtain ⟨e₀, f, hnew, hf, -, hcount, hcached⟩ := wrapped_filed
  have hfirst : (0x800000 : UInt64) ≤ 0x800000 + (7 : Nat).toUInt64 := by decide
  have hlast : (0x800000 : UInt64) + (7 : Nat).toUInt64 < 0x800008 := by decide
  have hdropped := (lookup_invalidate (k := 23) hnew (by decide) (by decide) wrapped hf (by omega)
    hfirst hlast).2 (by decide)
  exact ⟨e₀, f, hnew, hf, hcount, hcached, hdropped⟩

/-- A range that starts before the end of the keys and ends behind the start of the region does not: only
the last page is emptied. -/
theorem lookup_invalidate_over_end : ∃ e₀ f, create {} = .ok e₀ ∧
    latest? (e₀.history wrapped).1 (e₀.key 0x800000) = some f ∧ f.addr = 0x800000 ∧ f.count = 8 ∧
    (((e₀.history wrapped).2.invalidate 0x7ffff0 0x800010).2.lookup 0x800000).1 ≠ 0 := by
  obtain ⟨e₀, f, hnew, hf, haddr, hcount, -⟩ := wrapped_filed
  refine ⟨e₀, f, hnew, hf, haddr, hcount, ?_⟩
  have hkept : (create {}).toOption.map (fun e₀ =>
      (((e₀.history wrapped).2.invalidate 0x7ffff0 0x800010).2.lookup 0x800000).1 != 0) =
        some true := by decide +kernel
  simpa only [hnew, Except.toOption, Option.map_some, Option.some.injEq, bne_iff_ne] using hkept

end Engine

end Dynarec
