import Dynarec.Proofs.Guest.Steps
import Dynarec.Proofs.Text.Hexadecimal
import Dynarec.Shell.Console

/-!
# Words that are typed

A text is cut into the pieces between its separators, and each piece must be a numeral of a word. The
words stand in memory as they were typed: a window on their bytes has the same words. The console
looks at a line with a narrower rule before it is read, and what passes there can be read.
-/
namespace Dynarec

open Text List

namespace Guest

/-- A text and the pieces in it: runs without separators that cannot be made longer. -/
inductive Spaced : List Char → List (List Char) → Prop
  | nil : Spaced [] []
  | separator {c cs ps} : isSeparator c = true → Spaced cs ps → Spaced (c :: cs) ps
  | piece {p cs ps} : p ≠ [] → (∀ c ∈ p, isSeparator c = false) →
      (∀ c, cs.head? = some c → isSeparator c = true) → Spaced cs ps → Spaced (p ++ cs) (p :: ps)

section Pieces

variable {p cs : List Char} {ps : List (List Char)}

theorem spaced_piecesFrom {open_ : List Char} (hopen : ∀ c ∈ open_, isSeparator c = false)
    (cs : List Char) : Spaced (open_.reverse ++ cs) (piecesFrom open_ cs) := by
  fun_induction piecesFrom open_ cs with
  | case1 open_ hempty =>
    simpa [isEmpty_iff.mp hempty] using Spaced.nil
  | case2 open_ hempty =>
    exact .piece (by simpa using hempty) (by simpa using hopen) (by simp) .nil
  | case3 open_ c cs hc hempty ih =>
    simpa [isEmpty_iff.mp hempty] using (ih (by simp)).separator hc
  | case4 open_ c cs hc hempty ih =>
    exact .piece (by simpa using hempty) (by simpa using hopen) (by simpa using hc)
      ((ih (by simp)).separator hc)
  | case5 open_ c cs hc ih =>
    simpa using ih (by simpa [hc] using hopen)

/-- Characters that do not separate are put in front of the open run. -/
theorem piecesFrom_append (hp : ∀ c ∈ p, isSeparator c = false) (open_ cs : List Char) :
    piecesFrom open_ (p ++ cs) = piecesFrom (p.reverse ++ open_) cs := by
  induction p generalizing open_ with
  | nil => rfl
  | cons c p ih =>
    obtain ⟨hc, hp⟩ := forall_mem_cons.mp hp
    rw [cons_append, piecesFrom, if_neg (by simp [hc]), ih hp, reverse_cons,
      append_assoc]
    rfl

theorem piecesFrom_separator {c : Char} (hc : isSeparator c = true) :
    piecesFrom [] (c :: cs) = piecesFrom [] cs := by
  simp [piecesFrom, hc]

theorem Spaced.pieces_eq (h : Spaced cs ps) : piecesFrom [] cs = ps := by
  induction h with
  | nil => rfl
  | separator hc _ ih => rw [piecesFrom_separator hc, ih]
  | @piece p cs ps hne hp hhead _ ih =>
    have hopen : ¬ (p.reverse ++ []).isEmpty = true := by simpa using hne
    rw [piecesFrom_append hp]
    cases cs with
    | nil =>
      rw [piecesFrom, if_neg hopen, ← ih]
      simp [piecesFrom]
    | cons c cs =>
      have hc := hhead c rfl
      rw [piecesFrom_separator hc] at ih
      rw [piecesFrom, if_pos hc, if_neg hopen, ih]
      simp

theorem spaced_iff {s : String} : Spaced s.toList ps ↔ pieces s = ps := by
  refine ⟨Spaced.pieces_eq, ?_⟩
  rintro rfl
  exact @spaced_piecesFrom [] (fun _ hc => nomatch hc) s.toList

end Pieces

/-- A word as it can be typed: digits of either case, behind `0x`, `0X` or nothing. -/
def Spells (piece : List Char) (w : Word) : Prop :=
  ∃ mark ∈ [[], ['0', 'x'], ['0', 'X']], ∃ digits, piece = mark ++ digits ∧
    IsNumeral digits ∧ hexValue digits = w.bits.toNat

section Words

variable {piece : List Char} {w : Word}

theorem exists_digitsOf (piece : List Char) : ∃ mark ∈ [[], ['0', 'x'], ['0', 'X']], ∃ digits,
    piece = mark ++ digits ∧ digitsOf piece = digits.map lowerChar := by
  rw [digitsOf]
  split
  · rename_i cs heq
    obtain ⟨a, rest, rfl, ha, heq⟩ := map_eq_cons_iff.mp heq
    obtain ⟨b, digits, rfl, hb, rfl⟩ := map_eq_cons_iff.mp heq
    rw [(lowerChar_mark a).1] at ha
    rw [(lowerChar_mark b).2] at hb
    exact ⟨[a, b], by simpa [ha] using hb, digits, rfl, rfl⟩
  · exact ⟨[], by simp, piece, rfl, rfl⟩

theorem digitsOf_mark {mark digits : List Char} (hmark : mark ∈ [[], ['0', 'x'], ['0', 'X']])
    (hdigits : IsNumeral digits) : digitsOf (mark ++ digits) = digits.map lowerChar := by
  simp only [mem_cons, not_mem_nil, or_false] at hmark
  rcases hmark with rfl | rfl | rfl
  · rw [nil_append, digitsOf]
    split
    · -- a numeral has no `x`
      rename_i cs heq
      obtain ⟨a, rest, rfl, -, heq⟩ := map_eq_cons_iff.mp heq
      obtain ⟨b, rest, rfl, hb, -⟩ := map_eq_cons_iff.mp heq
      have hdigit := hdigits.2 b (by simp)
      rw [← digit_lowerChar, hb] at hdigit
      cases hdigit
    · rfl
  · rfl
  · rfl

theorem parseNatural_eq_ok {cs : List Char} {n : Nat} :
    parseNatural (.fixed 16) 32 (cs.map lowerChar) = .ok n ↔
      IsNumeral cs ∧ n < 2 ^ 32 ∧ hexValue cs = n := by
  have hread := @readDigits_eq_ok (2 ^ 32) 0 n (by decide) cs
  rw [IsNumeral, and_assoc, hexValue, ← hread, parseNatural]
  cases cs with
  | nil => simp
  | cons c cs =>
    simp only [Base.resolve, Base.isSpelled, Nat.one_shiftLeft, map_cons,
      isEmpty_cons, Bool.false_and, Bool.false_eq_true, if_false, ne_eq, reduceCtorEq,
      not_false_eq_true, true_and]
    split <;> simp_all

theorem readWord_eq_ok : readWord piece = .ok w ↔ Spells piece w := by
  have hread : readWord piece = .ok w ↔
      ∃ n, parseNatural (.fixed 16) 32 (digitsOf piece) = .ok n ∧ n.toUInt32 = w.bits := by
    rw [readWord, readNatural, String.toList_ofList]
    cases parseNatural (.fixed 16) 32 (digitsOf piece) with
    | error e => simp [Except.mapError]
    | ok n =>
      obtain ⟨bits⟩ := w
      simp [Except.mapError]
  rw [hread]
  constructor
  · rintro ⟨n, hn, hw⟩
    obtain ⟨mark, hmark, digits, rfl, hdigits⟩ := exists_digitsOf piece
    rw [hdigits, parseNatural_eq_ok] at hn
    refine ⟨mark, hmark, digits, rfl, hn.1, ?_⟩
    rw [hn.2.2, ← hw, Nat.toUInt32_eq, UInt32.toNat_ofNat_of_lt' hn.2.1]
  · rintro ⟨mark, hmark, digits, rfl, hdigits, hw⟩
    rw [digitsOf_mark hmark hdigits]
    exact ⟨_, parseNatural_eq_ok.mpr ⟨hdigits, w.bits.toNat_lt, hw⟩, UInt32.ofNat_toNat⟩

theorem readWords_eq_ok {ps : List (List Char)} {ws : List Word} :
    readWords ps = .ok ws ↔ Forall₂ Spells ps ws := by
  induction ps generalizing ws with
  | nil => simp [readWords, eq_comm]
  | cons p ps ih =>
    rw [readWords, forall₂_cons_left_iff]
    constructor
    · intro h
      obtain ⟨w, rest, hw, hrest, ⟨⟩⟩ := Except.bind₂_eq_ok.mp h
      exact ⟨w, rest, readWord_eq_ok.mp hw, ih.mp hrest, rfl⟩
    · rintro ⟨w, rest, hw, hrest, rfl⟩
      exact Except.bind₂_eq_ok.mpr ⟨w, rest, readWord_eq_ok.mpr hw, ih.mpr hrest, rfl⟩

theorem parseWords_eq_ok {s : String} {bytes : List UInt8} : parseWords s = .ok bytes ↔
    ∃ ws, Forall₂ Spells (pieces s) ws ∧ Word.toBytes ws = bytes := by
  simp only [parseWords, ← readWords_eq_ok]
  cases readWords (pieces s) <;> simp [Except.map]

end Words

theorem Word.ofBytes_ofWordBE (x : UInt32) :
    Word.ofBytes (x >>> 24).toUInt8 (x >>> 16).toUInt8 (x >>> 8).toUInt8 x.toUInt8 = ⟨x⟩ := by
  have hlt := x.toNat_lt
  have hcode := congrArg BitVec.toNat
    (code_ofBytes (x >>> 24).toUInt8 (x >>> 16).toUInt8 (x >>> 8).toUInt8 x.toUInt8)
  simp only [UInt32.toNat_toUInt8, UInt32.toNat_shiftRight, UInt32.reduceToNat,
    Nat.shiftRight_eq_div_pow, BitVec.toNat_ofNat, Nat.reduceMod, Nat.reducePow] at hcode
  refine congrArg Word.mk (UInt32.toNat_inj.mp (hcode.trans ?_))
  omega

theorem Word.drop_toBytes (ws : List Word) (k : Nat) :
    (toBytes ws).drop (4 * k) = toBytes (ws.drop k) := by
  induction k generalizing ws with
  | zero => rfl
  | succ k ih =>
    cases ws with
    | nil => rfl
    | cons w ws => exact ih ws

/-- A window on the bytes of words has the words, and nothing behind them. -/
theorem fetch?_toBytes (width : Ty) {start : UInt64} (halign : start.toNat % 4 = 0)
    (ws : List Word) {k : Nat} (hk : 4 * k < 2 ^ 64) :
    CodeWindow.fetch? ⟨width, start, (Word.toBytes ws).toArray⟩ (start + (4 * k).toUInt64) =
      ws[k]? := by
  have hnat : (4 * k).toUInt64.toNat = 4 * k := UInt64.toNat_ofNat_of_lt' hk
  have hoffset : (start + (4 * k).toUInt64 - start).toNat = 4 * k := by
    rw [UInt64.add_comm, UInt64.add_sub_cancel, hnat]
  have haligned : (start + (4 * k).toUInt64) &&& 3 = 0 := by
    refine UInt64.toNat_inj.mp ?_
    rw [UInt64.toNat_and, show (3 : UInt64).toNat = 2 ^ 2 - 1 from rfl,
      Nat.and_two_pow_sub_one_eq_mod, UInt64.toNat_add, hnat]
    show _ = 0
    omega
  have hbyte (j : Nat) : (Word.toBytes ws)[4 * k + j]? = (Word.toBytes (ws.drop k))[j]? := by
    rw [← Word.drop_toBytes, getElem?_drop]
  have hword : ws[k]? = (ws.drop k)[0]? := by rw [getElem?_drop, Nat.add_zero]
  rw [CodeWindow.fetch?, if_neg (not_not.mpr haligned), hword]
  simp only [hoffset, getElem?_toArray, hbyte, show (Word.toBytes ws)[4 * k]? = _ from hbyte 0]
  cases ws.drop k with
  | nil => rfl
  | cons w rest => exact congrArg some (Word.ofBytes_ofWordBE w.bits)

theorem exists_forall₂ {α β : Type} {R : α → β → Prop} {as : List α} (h : ∀ a ∈ as, ∃ b, R a b) :
    ∃ bs, Forall₂ R as bs := by
  induction as with
  | nil => exact ⟨[], .nil⟩
  | cons a as ih =>
    obtain ⟨⟨b, hb⟩, hrest⟩ := forall_mem_cons.mp h
    obtain ⟨bs, hbs⟩ := ih hrest
    exact ⟨b :: bs, .cons hb hbs⟩

theorem Spells.not_separator {p : List Char} {w : Word} (h : Spells p w) :
    ∀ c ∈ p, isSeparator c = false := by
  obtain ⟨mark, hmark, digits, rfl, hdigits, -⟩ := h
  have hmarks : ∀ mark ∈ [[], ['0', 'x'], ['0', 'X']], mark.any isSeparator = false := by decide
  intro c hc
  rcases mem_append.mp hc with hc | hc
  · exact Bool.eq_false_iff.mpr (any_eq_false.mp (hmarks mark hmark) c hc)
  · by_contra hsep
    have hdigit := hdigits.2 c hc
    simp only [isSeparator, Bool.not_eq_false, Bool.or_eq_true, beq_iff_eq] at hsep
    rcases hsep with ((rfl | rfl) | rfl) | rfl <;> cases hdigit

theorem Spaced.separators {cs seps : List Char} {ps : List (List Char)} (h : Spaced cs ps)
    (hseps : ∀ c ∈ seps, isSeparator c = true) : Spaced (seps ++ cs) ps := by
  induction seps with
  | nil => exact h
  | cons c seps ih =>
    obtain ⟨hc, hseps⟩ := forall_mem_cons.mp hseps
    exact (ih hseps).separator hc

end Guest

namespace Shell.Console

open Guest

theorem exists_spells {p : List Char} (h : isWord p = true) : ∃ w, Spells p w := by
  have hsplit : ∃ mark ∈ [[], ['0', 'x'], ['0', 'X']], ∃ digits, p = mark ++ digits ∧
      (!digits.isEmpty && digits.length ≤ 8 && digits.all fun c => (hexDigit? c).isSome) =
        true := by
    unfold isWord at h
    split at h
    · exact ⟨['0', 'x'], by simp, _, rfl, h⟩
    · exact ⟨[], by simp, _, rfl, h⟩
  obtain ⟨mark, hmark, digits, rfl, hdigits⟩ := hsplit
  simp only [Bool.and_eq_true, Bool.not_eq_true', isEmpty_eq_false_iff, decide_eq_true_eq,
    all_eq_true] at hdigits
  obtain ⟨⟨hne, hlength⟩, hall⟩ := hdigits
  have hlt : hexValue digits < 2 ^ 32 :=
    (hexValue_lt digits).trans_le (Nat.pow_le_pow_right (by decide) hlength)
  exact ⟨⟨(hexValue digits).toUInt32⟩, mark, hmark, digits, rfl, ⟨hne, hall⟩,
    (UInt32.toNat_ofNat_of_lt' hlt).symm⟩

def divides (c : Char) : Bool :=
  c == ' ' || c == ','

theorem isSeparator_of_divides {c : Char} (hc : divides c = true) : isSeparator c = true := by
  simp only [divides, isSeparator, Bool.or_eq_true] at hc ⊢
  exact Or.inl (Or.inl hc)

/-- Either all characters of a run divide, or none. -/
theorem divides_of_any {m : List Char} (hsame : m.IsChain fun a b => divides a == divides b)
    (hany : m.any divides = true) {c : Char} (hc : c ∈ m) : divides c = true := by
  have hpairwise : (m.map divides).Pairwise Eq :=
    pairwise_map.mpr (isChain_iff_pairwise.mp (hsame.imp fun _ _ => beq_iff_eq.mp))
  obtain ⟨d, hd, hdivides⟩ := any_eq_true.mp hany
  have heq := hpairwise.forall_of_forall (fun _ _ => rfl) (mem_map_of_mem hc)
    (mem_map_of_mem hd)
  exact heq.trans hdivides

/-- Runs that divide, and words between them. -/
theorem spaced_flatten {runs : List (List Char)} (hne : ∀ m ∈ runs, m ≠ [])
    (hsame : ∀ m ∈ runs, m.IsChain fun a b => divides a == divides b)
    (hturn : runs.IsChain fun a b => ∃ ha hb, (divides (a.getLast ha) == divides (b.head hb)) = false)
    (hwords : ∀ m ∈ runs, m.any divides = false → ∃ w, Spells m w) :
    Spaced runs.flatten (runs.filter fun m => !m.any divides) := by
  induction runs with
  | nil => exact .nil
  | cons m runs ih =>
    obtain ⟨hm, hne⟩ := forall_mem_cons.mp hne
    obtain ⟨hflag, hsame⟩ := forall_mem_cons.mp hsame
    obtain ⟨hword, hwords⟩ := forall_mem_cons.mp hwords
    have hrest := ih hne hsame hturn.tail hwords
    rw [flatten_cons]
    cases hany : m.any divides with
    | true =>
      rw [filter_cons_of_neg (by simp [hany])]
      exact hrest.separators fun c hc => isSeparator_of_divides (divides_of_any hflag hany hc)
    | false =>
      obtain ⟨w, hw⟩ := hword hany
      rw [filter_cons_of_pos (by simp [hany])]
      refine .piece hm hw.not_separator (fun c hc => isSeparator_of_divides ?_) hrest
      cases runs with
      | nil => cases hc
      | cons n runs =>
        obtain ⟨hm, hn, hends⟩ := (isChain_cons_cons.mp hturn).1
        have hlast := any_eq_false.mp hany _ (m.getLast_mem hm)
        obtain rfl : n.head hn = c := by simpa [head?_append, head?_eq_some_head hn] using hc
        simpa [hlast] using hends

theorem parseWords_of_isWords {line : String} (h : isWords line.toList = true) :
    ∃ ws, ws ≠ [] ∧ parseWords line = .ok (Word.toBytes ws) := by
  have hdef (cs : List Char) : isWords cs =
      (let pieces := (cs.splitBy fun a b => divides a == divides b).filter fun p => !p.any divides
      !pieces.isEmpty && pieces.all isWord && !cs.head?.any divides &&
        !cs.getLast?.any divides) := rfl
  simp only [hdef, Bool.and_eq_true, Bool.not_eq_true', isEmpty_eq_false_iff,
    all_eq_true] at h
  obtain ⟨⟨⟨hne, hwords⟩, -⟩, -⟩ := h
  have hspaced := spaced_flatten (fun m hm => ne_nil_of_mem_splitBy hm)
    (fun m hm => isChain_of_mem_splitBy hm)
    (isChain_getLast_head_splitBy (fun a b => divides a == divides b) line.toList)
    (fun m hm hany => exists_spells (hwords m (mem_filter.mpr ⟨hm, by simp [hany]⟩)))
  rw [flatten_splitBy, spaced_iff] at hspaced
  rw [← hspaced] at hne hwords
  obtain ⟨ws, hws⟩ := exists_forall₂ fun p hp => exists_spells (hwords p hp)
  refine ⟨ws, ?_, parseWords_eq_ok.mpr ⟨ws, hws, rfl⟩⟩
  rintro rfl
  exact hne (forall₂_nil_right_iff.mp hws)

end Shell.Console

/-- Words are read exactly. A text has words if each of its pieces is one, and then the bytes are
theirs; so words are read as they were typed, and a window on the bytes has them. A line that the
console takes for words has some. -/
theorem Guest.words_read_exactly :
    (∀ s : String, ∃ ps, Spaced s.toList ps ∧ ∀ bytes, parseWords s = .ok bytes ↔
      ∃ ws, List.Forall₂ Spells ps ws ∧ Word.toBytes ws = bytes) ∧
    (∀ (s : String) ps ws, Spaced s.toList ps → List.Forall₂ Spells ps ws →
      parseWords s = .ok (Word.toBytes ws)) ∧
    (∀ width (start : UInt64) ws (k : Nat), start.toNat % 4 = 0 → 4 * k < 2 ^ 64 →
      CodeWindow.fetch? ⟨width, start, (Word.toBytes ws).toArray⟩ (start + (4 * k).toUInt64) =
        ws[k]?) ∧
    ∀ line, Shell.Console.isWords (Text.trim line).toList = true →
      ∃ ws, ws ≠ [] ∧ parseWords (Text.trim line) = .ok (Word.toBytes ws) := by
  refine ⟨fun s => ⟨_, spaced_iff.mpr rfl, fun bytes => parseWords_eq_ok⟩, ?_,
    fun width start ws k halign hk => fetch?_toBytes width halign ws hk,
    fun line => Shell.Console.parseWords_of_isWords⟩
  intro s ps ws hspaced hws
  rw [← spaced_iff.mp hspaced] at hws
  exact parseWords_eq_ok.mpr ⟨ws, hws, rfl⟩

/-- Two words with different marks and cases, and a line with blanks around it. -/
theorem Guest.words_read_exactly_marked :
    parseWords "0x24620005,\t0XFf" = .ok (Word.toBytes [⟨0x24620005⟩, ⟨0xff⟩]) ∧
      CodeWindow.fetch? ⟨.i32, 0x1000, (Word.toBytes [⟨0x24620005⟩, ⟨0xff⟩]).toArray⟩
        (0x1000 + (4 * 1).toUInt64) = some ⟨0xff⟩ ∧
      ∃ ws, ws ≠ [] ∧ parseWords (Text.trim " 24620005 ,0x1\n") = .ok (Word.toBytes ws) := by
  obtain ⟨-, hparse, hfetch, hline⟩ := Guest.words_read_exactly
  have hspaced : Spaced "0x24620005,\t0XFf".toList ["0x24620005".toList, "0XFf".toList] :=
    spaced_iff.mpr (by cbv)
  have hfirst : Spells "0x24620005".toList ⟨0x24620005⟩ := readWord_eq_ok.mp (by cbv)
  have hsecond : Spells "0XFf".toList ⟨0xff⟩ := readWord_eq_ok.mp (by cbv)
  exact ⟨hparse _ _ _ hspaced (.cons hfirst (.cons hsecond .nil)),
    hfetch .i32 0x1000 _ 1 (by decide) (by decide), hline _ (by cbv)⟩

end Dynarec
