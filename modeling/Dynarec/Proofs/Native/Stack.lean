import Dynarec.Proofs.Native.Layout
import Dynarec.Proofs.Native.Operands

/-!
# Entering and leaving a function

The prologue saves the frame pointer and the other registers that a function must keep, and the epilogue
loads them again, if nothing has been written to where they are. All that they access lies on the stack.
-/
namespace Dynarec

open Function Memory List

section Spans

variable {a b : UInt64} {k l m n : Nat}

theorem mem_span_add_iff (hle : k + n ≤ 2 ^ 64) (x : UInt64) :
    x ∈ span (a + k.toUInt64) n ↔ k ≤ (x - a).toNat ∧ (x - a).toNat < k + n := by
  show (x - (a + k.toUInt64)).toNat < n ↔ _
  have hsub : x - (a + k.toUInt64) = x - a - k.toUInt64 := by grind
  have hlt := (x - a).toNat_lt
  rw [hsub, UInt64.toNat_sub, Nat.toUInt64_eq, UInt64.toNat_ofNat']
  generalize (x - a).toNat = y at hlt ⊢
  by_cases hn : n = 0
  · omega
  · rw [Nat.mod_eq_of_lt (show k < 2 ^ 64 by omega)]
    omega

theorem span_subset_of_le (h : n ≤ m) : span a n ⊆ span a m :=
  fun _ hx => lt_of_lt_of_le hx h

theorem span_add_subset (h : k + n ≤ m) (hle : m ≤ 2 ^ 64) : span (a + k.toUInt64) n ⊆ span a m := by
  intro x hx
  have hx' := ((mem_span_add_iff (by omega) x).mp hx).2
  show (x - a).toNat < m
  omega

theorem span_add_disjoint (h : k + n ≤ l) (hle : l + m ≤ 2 ^ 64) :
    Disjoint (span (a + k.toUInt64) n) (span (a + l.toUInt64) m) := by
  refine Set.disjoint_left.mpr fun x hx hx' => ?_
  have h₁ := (mem_span_add_iff (by omega) x).mp hx
  have h₂ := (mem_span_add_iff (by omega) x).mp hx'
  omega

theorem span_disjoint_add (h : n ≤ l) (hle : l + m ≤ 2 ^ 64) :
    Disjoint (span a n) (span (a + l.toUInt64) m) := by
  refine Set.disjoint_left.mpr fun x hx hx' => ?_
  have hlow : (x - a).toNat < n := hx
  have hhigh := (mem_span_add_iff hle x).mp hx'
  omega

theorem span_disjoint_of_le (h : a.toNat + n ≤ b.toNat) (hle : b.toNat + m ≤ 2 ^ 64) :
    Disjoint (span a n) (span b m) := by
  refine Set.disjoint_left.mpr fun x hx hx' => ?_
  have hlow : (x - a).toNat < n := hx
  have hhigh : (x - b).toNat < m := hx'
  have hx := x.toNat_lt
  have ha := a.toNat_lt
  have hb := b.toNat_lt
  rw [UInt64.toNat_sub] at hlow hhigh
  omega

theorem Memory.read_congr {m m' : Memory} (h : ∀ x ∈ span a n, m x = m' x) :
    m.read a n = m'.read a n := by
  rw [read, read, range_congr fun j hj => h _ (mem_span_add hj)]

theorem Memory.read_write_self (m : Memory) (a x : UInt64) : (m.write a 8 x).read a 8 = x := by
  apply UInt64.toNat_inj.mp
  rw [toNat_read_write m a (by decide) x]
  exact Nat.mod_eq_of_lt x.toNat_lt

theorem add_words (a : UInt64) (n : Nat) :
    a + 8 + (8 * n).toUInt64 = a + (8 * (n + 1)).toUInt64 := by
  rw [Nat.mul_succ, Native.toUInt64_add, show Nat.toUInt64 8 = 8 from rfl]
  grind

namespace Memory

/-- The words stand in memory one behind the other. -/
def HasWords (m : Memory) : UInt64 → List UInt64 → Prop
  | _, [] => True
  | a, x :: xs => m.read a 8 = x ∧ m.HasWords (a + 8) xs

variable {m m' : Memory} {x : UInt64} {xs ys : List UInt64}

theorem hasWords_append : m.HasWords a (xs ++ ys) ↔
    m.HasWords a xs ∧ m.HasWords (a + (8 * xs.length).toUInt64) ys := by
  induction xs generalizing a with
  | nil => simp [HasWords]
  | cons x xs ih => rw [cons_append, HasWords, HasWords, ih, and_assoc, add_words, length_cons]

theorem HasWords.congr (h : m.HasWords a xs) (hle : 8 * xs.length ≤ 2 ^ 64)
    (hm : ∀ b ∈ span a (8 * xs.length), m' b = m b) : m'.HasWords a xs := by
  induction xs generalizing a with
  | nil => trivial
  | cons x xs ih =>
    rw [length_cons] at hm hle
    refine ⟨(read_congr fun b hb => hm b (span_subset_of_le (by omega) hb)).trans h.1, ?_⟩
    exact ih h.2 (by omega) fun b hb => hm b (span_add_subset (k := 8) (by omega) hle hb)

theorem HasWords.get (h : m.HasWords a xs) (hk : xs[k]? = some x) :
    m.read (a + (8 * k).toUInt64) 8 = x := by
  induction xs generalizing a k with
  | nil => cases hk
  | cons y xs ih =>
    cases k with
    | zero =>
      obtain rfl : y = x := by simpa using hk
      simpa using h.1
    | succ k =>
      rw [← add_words]
      exact ih h.2 (by simpa using hk)

end Memory

end Spans

namespace Native

open Machine

variable {F : Set UInt64} {s s₁ s' : State} {bottom : UInt64} {xs ys : List UInt64}

/-- Words are pushed, so the last one stands at the bottom. -/
structure Pushes (F : Set UInt64) (bottom : UInt64) (xs : List UInt64) (s s' : State) : Prop where
  rsp : s'.regs .rsp = bottom
  words : s'.memory.HasWords bottom xs.reverse
  memory : ∀ a ∉ span bottom (8 * xs.length), s'.memory a = s.memory a
  moves : Moves F [] s s'

theorem pushes_push (hrsp : s.regs .rsp = bottom + 8) (hin : span bottom 8 ⊆ F) (x : UInt64) :
    Pushes F bottom [x] s (s.push x) := by
  have hbottom : s.regs .rsp - 8 = bottom := by
    rw [hrsp]
    grind
  have hmemory : (s.push x).memory = s.memory.write bottom 8 x := hbottom ▸ rfl
  refine ⟨?_, ?_, fun a ha => ?_, [⟨true, bottom, 8, x⟩], ?_, .hidden hin .nil⟩
  · show update s.regs .rsp (s.regs .rsp - 8) .rsp = bottom
    rw [update_self, hbottom]
  · exact ⟨hmemory ▸ read_write_self .., trivial⟩
  · rw [hmemory]
    exact write_of_notMem ha x
  · exact hbottom ▸ rfl

theorem Pushes.after (hp : Pushes F bottom xs s₁ s') (hmemory : s₁.memory = s.memory)
    (hmoves : Moves F [] s s₁) : Pushes F bottom xs s s' :=
  ⟨hp.rsp, hp.words, hmemory ▸ hp.memory, hmoves.trans hp.moves⟩

theorem Pushes.append (h₁ : Pushes F (bottom + (8 * ys.length).toUInt64) xs s s₁)
    (h₂ : Pushes F bottom ys s₁ s') (hle : 8 * ys.length + 8 * xs.length ≤ 2 ^ 64) :
    Pushes F bottom (xs ++ ys) s s' := by
  refine ⟨h₂.rsp, ?_, fun a ha => ?_, h₁.moves.trans h₂.moves⟩
  · rw [reverse_append, hasWords_append, length_reverse]
    refine ⟨h₂.words, h₁.words.congr (by rw [length_reverse]; omega) fun a ha => h₂.memory a ?_⟩
    rw [length_reverse] at ha
    exact Set.disjoint_right.mp (span_disjoint_add le_rfl hle) ha
  · rw [length_append] at ha
    rw [h₂.memory a fun hin => ha (span_subset_of_le (by omega) hin)]
    exact h₁.memory a fun hin => ha (span_add_subset (by omega) (by omega) hin)

theorem runs_pushes (bottom : UInt64) (rs : List Reg) (hrs : .rsp ∉ rs)
    (hrsp : s.regs .rsp = bottom + (8 * rs.length).toUInt64) (hsmall : 8 * rs.length < 2 ^ 63)
    (hin : span bottom (8 * rs.length) ⊆ F) :
    ∃ s', Runs (rs.map .push) s [] s' ∧ (∀ r, r ≠ .rsp → s'.regs r = s.regs r) ∧
      Pushes F bottom (rs.map s.regs) s s' := by
  induction rs generalizing s with
  | nil => exact ⟨s, .refl, fun _ _ => rfl, by simpa using hrsp, trivial, fun _ _ => rfl, .of_eq rfl⟩
  | cons r rs ih =>
    rw [length_cons] at hrsp hsmall hin
    rw [mem_cons, not_or] at hrs
    have hpush : Pushes F (bottom + (8 * rs.length).toUInt64) [s.regs r] s (s.push (s.regs r)) := by
      refine pushes_push ?_ ((span_add_subset (by omega) (by omega)).trans hin) _
      rw [hrsp, ← add_words]
      grind
    have hregs : ∀ q, q ≠ .rsp → (s.push (s.regs r)).regs q = s.regs q := fun q hq =>
      update_of_ne hq _ _
    obtain ⟨s', hrun, hregs', hp⟩ := ih hrs.2 hpush.rsp (by omega)
      ((span_subset_of_le (by omega)).trans hin)
    rw [map_congr_left fun q hq => hregs q fun h => hrs.2 (h ▸ hq)] at hp
    refine ⟨s', .instr rfl hrun, fun q hq => (hregs' q hq).trans (hregs q hq), ?_⟩
    exact Pushes.append (by rwa [length_map]) hp (by simp; omega)

/-- Registers that are popped have what stands on the stack, from the bottom on. -/
theorem runs_pops (rs : List Reg) (hnodup : rs.Nodup) (hrs : .rsp ∉ rs)
    (hrsp : s.regs .rsp = bottom) (hsmall : 8 * rs.length < 2 ^ 63)
    (hin : span bottom (8 * rs.length) ⊆ F) (hlen : xs.length = rs.length)
    (hxs : s.memory.HasWords bottom xs) :
    ∃ s', Runs (rs.map .pop) s [] s' ∧ s'.regs .rsp = bottom + (8 * rs.length).toUInt64 ∧
      rs.map s'.regs = xs ∧ (∀ r ∉ rs, r ≠ .rsp → s'.regs r = s.regs r) ∧
      s'.memory = s.memory ∧ Moves F [] s s' := by
  induction rs generalizing s bottom xs with
  | nil =>
    obtain rfl := eq_nil_of_length_eq_zero hlen
    exact ⟨s, .refl, by simpa using hrsp, rfl, fun _ _ _ => rfl, rfl, .of_eq rfl⟩
  | cons r rs ih =>
    obtain ⟨x, xs, rfl⟩ := exists_cons_of_length_eq_add_one hlen
    subst hrsp
    rw [length_cons] at hsmall hin
    rw [nodup_cons] at hnodup
    rw [mem_cons, not_or] at hrs
    let s₁ := s.pop.2.setReg r s.pop.1
    have hregs : s₁.regs = update (update s.regs .rsp (s.regs .rsp + 8)) r x := by
      rw [← hxs.1]
      rfl
    have hbottom : span (s.regs .rsp) 8 ⊆ F := (span_subset_of_le (by omega)).trans hin
    have hmoves : Moves F [] s s₁ := ⟨[⟨false, s.regs .rsp, 8, _⟩], rfl, .hidden hbottom .nil⟩
    have hrsp₁ : s₁.regs .rsp = s.regs .rsp + 8 := by rw [hregs, update_of_ne hrs.1, update_self]
    obtain ⟨s', hrun, hrsp', hwords, hothers, hmemory, hmoves'⟩ := ih hnodup.2 hrs.2 hrsp₁ (by omega)
      ((span_add_subset (k := 8) (by omega) (by omega)).trans hin) (Nat.succ.inj hlen) hxs.2
    refine ⟨s', .instr rfl hrun, by rw [hrsp', add_words, length_cons], ?_, ?_, hmemory,
      hmoves.trans hmoves'⟩
    · rw [map_cons, hwords, hothers r hnodup.1 (Ne.symm hrs.1), hregs, update_self]
    · intro q hq hqrsp
      rw [mem_cons, not_or] at hq
      rw [hothers q hq.2 hqrsp, hregs, update_of_ne hq.1, update_of_ne hqrsp]

section Frame

/-- The registers that the epilogue loads, in this order. -/
def restored : List Reg := Reg.saved.reverse ++ [.rbp]

/-- What the prologue has left above the frame, from `base` on: the registers and, at the top, the
return address. -/
def Saved (m : Memory) (base : UInt64) (regs : Reg → UInt64) (ret : UInt64) : Prop :=
  m.HasWords base (restored.map regs ++ [ret])

/-- The saved area and the return address. -/
def savedSpan (base : UInt64) : Set UInt64 :=
  span base 56

variable {m m' : Memory} {base ret : UInt64} {regs : Reg → UInt64}

theorem Saved.congr (hs : Saved m base regs ret) (h : ∀ a ∈ savedSpan base, m' a = m a) :
    Saved m' base regs ret :=
  HasWords.congr hs (by simp [restored, Reg.saved]) h

/-- The prologue saves registers above the frame and lets `rbp` point there. -/
theorem runs_prologue (frame : Nat) (s : State) (hin : span (s.regs .rsp - 48) 48 ⊆ F) :
    ∃ s', Runs (prologue frame) s [] s' ∧ s'.regs .rbp = s.regs .rsp - 8 ∧
      Saved s'.memory (s.regs .rsp - 48) s.regs (s.memory.read (s.regs .rsp) 8) ∧
      (∀ a ∉ span (s.regs .rsp - 48) 48, s'.memory a = s.memory a) ∧ Moves F [] s s' := by
  generalize hsp : s.regs .rsp = sp at hin ⊢
  have htop : sp - 8 = sp - 48 + (40 : Nat).toUInt64 := by
    show sp - 8 = sp - 48 + 40
    grind
  have hret : sp = sp - 48 + (48 : Nat).toUInt64 := by
    show sp = sp - 48 + 48
    grind
  obtain ⟨s₁, hrun₁, hregs₁, hp₁⟩ := runs_pushes (F := F) (s := s) (sp - 8) [.rbp] (by decide)
    (by rw [hsp]; exact (UInt64.sub_add_cancel sp 8).symm) (by decide)
    (by rw [htop]; exact (span_add_subset (by decide) (by decide)).trans hin)
  let s₂ := s₁.setReg .rbp (s₁.regs .rsp)
  have hregs₂ : ∀ r ∈ Reg.saved, s₂.regs r = s.regs r := by
    intro r hr
    have hne : r ≠ .rbp ∧ r ≠ .rsp := by
      revert hr
      cases r <;> decide
    exact (update_of_ne hne.1 _ _).trans (hregs₁ r hne.2)
  obtain ⟨s₃, hrun₃, hregs₃, hp₃⟩ := runs_pushes (F := F) (s := s₂) (sp - 48) Reg.saved
    (by decide) (by simpa [s₂, State.setReg, Reg.saved] using hp₁.rsp.trans htop)
    (by decide) ((span_subset_of_le (by decide)).trans hin)
  rw [map_congr_left hregs₂] at hp₃
  obtain ⟨s₄, hsub, hregs₄, hmemory₄, hlog₄⟩ : ∃ s₄ : State,
      (Machine.Instr.aluImm .sub .qword (.reg .rsp) (displacement frame)).exec s₃ = .ok s₄ ∧
        s₄.regs .rbp = s₃.regs .rbp ∧ s₄.memory = s₃.memory ∧ s₄.log = s₃.log :=
    ⟨_, rfl, by simp [State.set, State.setLow, State.setReg, State.get], rfl, rfl⟩
  have hp : Pushes F (sp - 48) ([s.regs .rbp] ++ Reg.saved.map s.regs) s s₃ :=
    Pushes.append (htop ▸ hp₁ : Pushes F _ _ s s₁) (hp₃.after rfl (.of_eq rfl)) (by simp [Reg.saved])
  refine ⟨s₄, (hrun₁.seq (.instr (exec_movReg .rsp .rbp s₁) hrun₃)).seq (.instr hsub .refl), ?_, ?_,
    fun a ha => hmemory₄ ▸ hp.memory a ha, hp.moves.trans (.of_eq hlog₄)⟩
  · rw [hregs₄, hregs₃ _ (by decide), ← hp₁.rsp]
    simp [s₂, State.setReg]
  · rw [Saved, hasWords_append, hmemory₄]
    have hread : s₃.memory.read sp 8 = s.memory.read sp 8 := by
      refine read_congr fun x hx => hp.memory x ?_
      rw [hret] at hx
      exact Set.disjoint_right.mp (span_disjoint_add (by simp [Reg.saved]) (by decide)) hx
    exact ⟨hp.words, (congrArg (s₃.memory.read · 8) hret.symm).trans hread, trivial⟩

/-- The epilogue restores what the prologue has saved. Its last instruction returns. -/
theorem runs_epilogue {sp : UInt64} (hrbp : s.regs .rbp = sp - 8)
    (hs : Saved s.memory (sp - 48) regs ret) (hin : savedSpan (sp - 48) ⊆ F) :
    ∃ s', Runs epilogue s [.ret] s' ∧ s'.pop.1 = ret ∧ s'.pop.2.regs .rsp = sp + 8 ∧
      (∀ r ∈ restored, s'.pop.2.regs r = regs r) ∧ s'.pop.2.memory = s.memory ∧
      Moves F [] s s'.pop.2 := by
  let s₁ := s.setReg .rsp (sp - 48)
  have hlea : (Machine.Instr.lea .rsp (frameMem (-(savedSize : Int)))).exec s = .ok s₁ := by
    show Except.ok (s.setReg .rsp (s.regs .rbp + (Int32.ofInt (-40)).toInt64.toUInt64)) = _
    have haddr : sp - 8 + (Int32.ofInt (-40)).toInt64.toUInt64 = sp - 48 := by
      rw [show (Int32.ofInt (-40)).toInt64.toUInt64 = 0 - 40 by decide]
      grind
    rw [hrbp, haddr]
  obtain ⟨hwords, hret, -⟩ := hasWords_append.mp hs
  obtain ⟨s₂, hrun, hrsp, hregs, -, hmemory, hmoves⟩ := runs_pops (F := F) (s := s₁) restored
    (by decide) (by decide) (by simp [s₁, State.setReg])
    (by decide) ((span_subset_of_le (by decide)).trans hin) rfl hwords
  have hmoves₁ : Moves F [] s s₁ := .of_eq rfl
  have htop : s₂.regs .rsp = sp - 48 + 48 := hrsp
  refine ⟨s₂, .instr hlea ?_, ?_, ?_, ?_, ?_, (hmoves₁.trans hmoves).trans ?_⟩
  · exact hrun.append [.ret]
  · show s₂.memory.read (s₂.regs .rsp) 8 = ret
    rw [hmemory, htop]
    exact hret
  · show update s₂.regs .rsp (s₂.regs .rsp + 8) .rsp = _
    rw [update_self, htop, UInt64.sub_add_cancel]
  · intro r hr
    have hne : r ≠ .rsp := fun h => absurd (h ▸ hr) (by decide)
    exact (update_of_ne hne _ _).trans (map_inj_left.mp hregs r hr)
  · exact hmemory
  · refine ⟨[⟨false, s₂.regs .rsp, 8, s₂.memory.read (s₂.regs .rsp) 8⟩], rfl, .hidden ?_ .nil⟩
    show span (s₂.regs .rsp) 8 ⊆ F
    rw [htop]
    exact (span_add_subset (k := 48) (by decide) (by decide)).trans hin

end Frame

end Native

end Dynarec
