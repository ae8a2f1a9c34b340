import Dynarec.Text.Case
import Dynarec.Text.Hex
import Dynarec.Text.Numeral
import Mathlib

/-!
# Hexadecimal numerals

What hexadecimal digits stand for. Numerals that are written can be read back, so no two numbers or
byte strings have the same text. Small letters count as digits just where capitals do: outside of
ASCII nothing becomes a digit, or an `x`, when its case is folded.
-/
namespace Dynarec.Text

open List

/-- The number that digits stand for. -/
def hexValue (digits : List Char) : Nat :=
  digits.foldl (fun n c => 16 * n + (hexDigit? c).getD 0) 0

theorem hexDigit?_digitChar {d : Nat} (hd : d < 16) : hexDigit? d.digitChar = some d := by
  interval_cases d <;> rfl

theorem hexValue_hexDigits (n : Nat) : hexValue (hexDigits n) = n := by
  induction n using Nat.strong_induction_on with
  | _ n ih =>
    rw [hexDigits]
    by_cases hn : n < 16
    · simp [Nat.toDigits_of_lt_base hn, hexValue, hexDigit?_digitChar hn]
    · have hrest := ih (n / 16) (by omega)
      rw [hexValue, hexDigits] at hrest
      rw [Nat.toDigits_of_base_le (by decide) (by omega), hexValue, foldl_append, hrest]
      simp only [foldl_cons, foldl_nil, hexDigit?_digitChar (Nat.mod_lt n (by decide : 0 < 16)),
        Option.getD_some]
      omega

theorem hexValue_padZeros (width : Nat) (digits : List Char) :
    hexValue (padZeros width digits) = hexValue digits := by
  have hzeros (n : Nat) : hexValue (replicate n '0') = 0 := by
    induction n with
    | zero => rfl
    | succ n ih => exact ih
  rw [padZeros, hexValue, foldl_append]
  exact congrArg (digits.foldl _ ·) (hzeros _)

theorem hexPadded_injective (width : Nat) : Function.Injective (hexPadded width) := by
  intro m n h
  have hdigits := congrArg hexValue (String.ofList_inj.mp ((String.append_right_inj "0x").mp h))
  simpa only [hexValue_padZeros, hexValue_hexDigits] using hdigits

theorem hexWord_injective : Function.Injective hexWord := by
  have hplain (x : UInt64) : hexWord x = hexPadded 0 x.toNat := by simp [hexWord, hex, hexPadded, padZeros]
  intro x y h
  rw [hplain, hplain] at h
  exact UInt64.toNat_inj.mp (hexPadded_injective 0 h)

theorem length_hexByte (b : UInt8) : (hexByte b).length = 2 := by
  have hle : (Nat.toDigits 16 b.toNat).length ≤ 2 :=
    (Nat.length_toDigits_le_iff (by decide) (by decide)).mpr b.toNat_lt
  rw [hexByte, padZeros, length_append, length_replicate, hexDigits]
  omega

theorem hexByte_injective : Function.Injective hexByte := by
  intro b c h
  have hdigits := congrArg hexValue h
  simpa only [hexByte, hexValue_padZeros, hexValue_hexDigits, UInt8.toNat_inj] using hdigits

theorem hexBytes_injective : Function.Injective hexBytes := by
  intro bs cs h
  have hchars := String.ofList_inj.mp h
  clear h
  have hlen := congrArg length hchars
  simp only [length_flatMap, length_hexByte, map_const', sum_replicate, smul_eq_mul,
    mul_left_inj' two_ne_zero] at hlen
  induction bs generalizing cs with
  | nil => exact (length_eq_zero_iff.mp hlen.symm).symm
  | cons b bs ih =>
    cases cs with
    | nil => cases hlen
    | cons c cs =>
      obtain ⟨hfirst, hrest⟩ := append_inj hchars (by simp [length_hexByte])
      rw [hexByte_injective hfirst, ih hrest (Nat.succ.inj hlen)]

theorem le_iff_toNat_le {c d : Char} : c ≤ d ↔ c.toNat ≤ d.toNat :=
  UInt32.le_iff_toNat_le

theorem toNat_ofNat (n : Nat) : (Char.ofNat n).toNat = n ∨ (Char.ofNat n).toNat = 0 := by
  rw [Char.ofNat]
  split_ifs
  · exact Or.inl rfl
  · exact Or.inr rfl

/-- Outside of ASCII, two capitals have a small letter inside of it: `i` and `k`. -/
theorem toNat_lowerChar {c : Char} (hc : 0x80 ≤ c.toNat) :
    (lowerChar c).toNat ∈ [0, 0x69, 0x6b] ∨ 0x80 ≤ (lowerChar c).toNat := by
  have hruns : ∀ r ∈ caseRuns, r.last < 0x80 ∨ 0x80 ≤ r.small ∨
      r.first = r.last ∧ r.small ∈ [0x69, 0x6b] := by decide +kernel
  rw [lowerChar, if_neg hc.not_gt]
  split
  · rename_i r hr
    have hcovers := Array.find?_some hr
    have hrun := hruns r (Array.mem_of_find?_eq_some hr)
    have hsmall := toNat_ofNat (r.small + (c.toNat - r.first))
    simp only [CaseRun.covers, Bool.and_eq_true, decide_eq_true_eq] at hcovers
    simp only [mem_cons, not_mem_nil, or_false] at hrun ⊢
    omega
  · exact Or.inr hc

theorem lowerChar_ascii {c : Char} (hc : c.toNat < 0x80) :
    lowerChar c = (Char.ofNat c.toNat).toLower := by
  rw [lowerChar, if_pos hc, Char.ofNat_toNat]

/-- Letters that are digits are so in either case. -/
theorem digit_lowerChar (c : Char) : (alnum? (lowerChar c)).filter (· < 16) = hexDigit? c := by
  by_cases hc : c.toNat < 0x80
  · have hall : ∀ n < 0x80, (alnum? (Char.ofNat n).toLower).filter (· < 16) =
        hexDigit? (Char.ofNat n) := by decide
    rw [lowerChar_ascii hc, hall _ hc, Char.ofNat_toNat]
  · have hhigh := toNat_lowerChar (not_lt.mp hc)
    simp only [mem_cons, not_mem_nil, or_false] at hhigh
    have hnone : hexDigit? c = none := by
      simp only [hexDigit?, le_iff_toNat_le, Char.reduceToNat]
      split_ifs <;> first | omega | rfl
    rw [hnone, alnum?, Option.filter_eq_none_iff]
    simp only [le_iff_toNat_le, Char.reduceToNat]
    split_ifs <;> simp <;> omega

theorem hexDigit?_lt {c : Char} {d : Nat} (h : hexDigit? c = some d) : d < 16 := by
  rw [← digit_lowerChar, Option.filter_eq_some_iff] at h
  exact of_decide_eq_true h.2

theorem hexValue_lt (cs : List Char) : hexValue cs < 16 ^ cs.length := by
  have hall (acc : Nat) : cs.foldl (fun n c => 16 * n + (hexDigit? c).getD 0) acc <
      (acc + 1) * 16 ^ cs.length := by
    induction cs generalizing acc with
    | nil => simp
    | cons c cs ih =>
      have hdigit : (hexDigit? c).getD 0 < 16 := by
        cases hc : hexDigit? c with
        | none => decide
        | some d => exact hexDigit?_lt hc
      calc _ < (16 * acc + (hexDigit? c).getD 0 + 1) * 16 ^ cs.length := ih _
        _ ≤ (acc + 1) * 16 * 16 ^ cs.length := Nat.mul_le_mul_right _ (by omega)
        _ = (acc + 1) * 16 ^ (c :: cs).length := by rw [length_cons, pow_succ']; ring
  simpa [hexValue] using hall 0

/-- The mark `0x` in either case. -/
theorem lowerChar_mark (c : Char) :
    (lowerChar c = '0' ↔ c = '0') ∧ (lowerChar c = 'x' ↔ c = 'x' ∨ c = 'X') := by
  by_cases hc : c.toNat < 0x80
  · have hall : ∀ n < 0x80, ((Char.ofNat n).toLower = '0' ↔ Char.ofNat n = '0') ∧
        ((Char.ofNat n).toLower = 'x' ↔ Char.ofNat n = 'x' ∨ Char.ofNat n = 'X') := by decide
    have hall := hall _ hc
    rwa [← lowerChar_ascii hc, Char.ofNat_toNat] at hall
  · have hhigh := toNat_lowerChar (not_lt.mp hc)
    simp only [← Char.toNat_inj, Char.reduceToNat, mem_cons, not_mem_nil, or_false]
      at hhigh ⊢
    omega

/-- All characters are digits, and there is one. -/
def IsNumeral (cs : List Char) : Prop :=
  cs ≠ [] ∧ ∀ c ∈ cs, (hexDigit? c).isSome

theorem le_foldl_hexDigit (cs : List Char) (acc : Nat) :
    acc ≤ cs.foldl (fun n c => 16 * n + (hexDigit? c).getD 0) acc := by
  induction cs generalizing acc with
  | nil => exact le_rfl
  | cons c cs ih =>
    have hrest := ih (16 * acc + (hexDigit? c).getD 0)
    rw [foldl_cons]
    omega

/-- A numeral is read if no digit makes it too large. -/
theorem readDigits_eq_ok {limit acc n : Nat} (hacc : acc < limit) {cs : List Char} :
    readDigits 16 limit false acc (cs.map lowerChar) = .ok n ↔
      (∀ c ∈ cs, (hexDigit? c).isSome) ∧ n < limit ∧
        cs.foldl (fun n c => 16 * n + (hexDigit? c).getD 0) acc = n := by
  induction cs generalizing acc with
  | nil =>
    simp only [map_nil, readDigits, Except.ok.injEq, foldl_nil]
    constructor
    · rintro rfl
      exact ⟨by simp, hacc, rfl⟩
    · exact fun h => h.2.2
  | cons c cs ih =>
    have hdigit := digit_lowerChar c
    rw [map_cons, readDigits, forall_mem_cons, foldl_cons]
    cases hhex : hexDigit? c with
    | none =>
      rw [hhex, Option.filter_eq_none_iff] at hdigit
      cases halnum : alnum? (lowerChar c) with
      | none => simp
      | some d => simp [show 16 ≤ d by simpa using hdigit d halnum]
    | some d =>
      obtain ⟨halnum, hd⟩ := Option.filter_eq_some_iff.mp (hdigit.trans hhex)
      have hle := le_foldl_hexDigit cs (16 * acc + d)
      have hd : ¬ 16 ≤ d := not_le.mpr (of_decide_eq_true hd)
      rw [Nat.mul_comm 16, Option.getD_some] at *
      by_cases hlimit : limit ≤ acc * 16 + d
      · simp only [halnum, hlimit, hd, if_true, if_false, Bool.false_and, Bool.false_eq_true,
          reduceCtorEq, false_iff]
        omega
      · simp [halnum, hlimit, hd, ih (not_le.mp hlimit)]

end Dynarec.Text
