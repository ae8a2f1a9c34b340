import Dynarec.Proofs.Native.Homes

/-!
# Live values keep their homes

Allocation compares lives by the numbers of instructions in label order. A path of blocks goes
through instructions in that order too, so a home that is kept from number to number is kept on
every path. The end of a life is exactly the last use of its variable, or its definition; therefore
the variables that hold registers at an instruction are those defined before it and used behind it.
-/
namespace Dynarec

open List

variable {i : Dynarec.Instr} {p q : Place} {g : Graph}

namespace Graph

/-- The instruction at `p` reads variable `v`. -/
def UsesAt (g : Graph) (p : Place) (v : Int) : Prop :=
  ∃ i t, g.instrAt? p = some i ∧ .var t v ∈ i.op.operands

/-- A path of blocks from the entry along the targets of branches. -/
def IsPath (g : Graph) (labels : List Nat) : Prop :=
  labels.head? = some 0 ∧ labels.IsChain fun k t => g.Edge k t

/-- The places that control goes through on a path of blocks. -/
def along (g : Graph) (labels : List Nat) : List Place :=
  labels.flatMap fun k =>
    (range ((g.blocks[k]?).elim 0 fun b => b.instrs.length)).map fun n => ⟨k, n⟩

theorem IsPath.pairwise (T : g.Typed) {labels : List Nat} (hpath : g.IsPath labels) :
    (g.along labels).Pairwise Place.Before := by
  have hlt : labels.Pairwise (· < ·) := by
    refine isChain_iff_pairwise.mp (hpath.2.imp ?_)
    intro k t hedge
    have := (dominators_forward T.dominators hedge).1
    omega
  rw [along, pairwise_flatMap]
  constructor
  · intro k _
    rw [pairwise_map]
    exact pairwise_lt_range.imp fun hlt => Or.inr ⟨rfl, hlt⟩
  · refine hlt.imp ?_
    intro k l hkl p hp q hq
    obtain ⟨n, -, rfl⟩ := mem_map.mp hp
    obtain ⟨m, -, rfl⟩ := mem_map.mp hq
    exact Or.inl hkl

end Graph

namespace Native

open Machine (Reg)

namespace Lives

variable {l l' : Lives} {k : Nat} {rest : List Dynarec.Instr}

/-- Instruction `i` reads or defines variable `v`. -/
def Touches (i : Dynarec.Instr) (v : Nat) : Prop :=
  (∃ t id, .var t id ∈ i.op.operands ∧ id.toNat = v) ∨ i.hasResult = true ∧ i.res.toNat = v

theorem endOf_uses (l : Lives) (k : Nat) (vs : List Value) (v : Nat) :
    (vs.foldl (use k) l).endOf v = l.endOf v ∨
      (vs.foldl (use k) l).endOf v = k ∧ ∃ t id, .var t id ∈ vs ∧ id.toNat = v := by
  induction vs generalizing l with
  | nil => exact Or.inl rfl
  | cons x vs ih =>
    rcases ih (use k l x) with hsame | ⟨hend, t, id, hid, hv⟩
    · rw [foldl_cons, hsame]
      cases x with
      | const t word => exact Or.inl rfl
      | var t id =>
        have hend : (use k l (.var t id)).endOf v =
            if id.toNat = v ∧ v < l.ends.size then k else l.endOf v := endOf_setIfInBounds ..
        rw [hend]
        split_ifs with hv
        · exact Or.inr ⟨rfl, t, id, mem_cons_self, hv.1⟩
        · exact Or.inl rfl
    · exact Or.inr ⟨hend, t, id, mem_cons_of_mem _ hid, hv⟩

theorem endOf_define (l : Lives) (k : Nat) (i : Dynarec.Instr) (v : Nat) :
    (l.define k i).endOf v = l.endOf v ∨ (l.define k i).endOf v = k ∧ i.res.toNat = v := by
  have hend : (l.define k i).endOf v = ((l.ends.modify i.res.toNat (max k))[v]?).getD 0 := rfl
  rw [hend, Array.getElem?_modify]
  split_ifs with hv
  · unfold endOf
    cases l.ends[v]? with
    | none => exact Or.inl rfl
    | some n =>
      rcases le_total k n with hle | hle
      · exact Or.inl (max_eq_right hle)
      · exact Or.inr ⟨max_eq_left hle, hv⟩
  · exact Or.inl rfl

theorem endOf_instr (h : l.instr k i = .ok l') (v : Nat) :
    l'.endOf v = l.endOf v ∨ l'.endOf v = k ∧ Touches i v := by
  have huses := endOf_uses l k i.op.operands v
  rcases (instr_cases h).2 with ⟨-, rfl⟩ | ⟨hyes, -, rfl⟩
  · exact huses.imp_right fun ⟨hend, hv⟩ => ⟨hend, Or.inl hv⟩
  · rcases endOf_define (i.op.operands.foldl (use k) l) k i v with hsame | ⟨hend, hv⟩
    · rw [hsame]
      exact huses.imp_right fun ⟨hend, hv⟩ => ⟨hend, Or.inl hv⟩
    · exact Or.inr ⟨hend, Or.inr ⟨hyes, hv⟩⟩

theorem endOf_instrs (h : l.instrs k rest = .ok l') (v : Nat) :
    l'.endOf v = l.endOf v ∨ ∃ j i, rest[j]? = some i ∧ l'.endOf v = k + j ∧ Touches i v := by
  induction rest generalizing l k with
  | nil =>
    cases h
    exact Or.inl rfl
  | cons i rest ih =>
    obtain ⟨mid, hmid, h⟩ := Except.bind_eq_ok.mp h
    rcases ih h with hsame | ⟨j, i', hi', hend, hv⟩
    · rw [hsame]
      refine (endOf_instr hmid v).imp_right ?_
      rintro ⟨hend, hv⟩
      exact ⟨0, i, rfl, hend, hv⟩
    · exact Or.inr ⟨j + 1, i', hi', by omega, hv⟩

theorem defs_instr (h : l.instr k i = .ok l') (hsize : l.defs.size = l.ends.size) (v : Nat) :
    (l'.defs[v]?).join = if i.hasResult = true ∧ i.res.toNat = v then some k
      else (l.defs[v]?).join := by
  have hdefs := (size_uses l k i.op.operands).2
  rcases (instr_cases h).2 with ⟨hno, rfl⟩ | ⟨hyes, hlt, rfl⟩
  · simp [hdefs, hno]
  · have hset : ((i.op.operands.foldl (use k) l).define k i).defs =
        l.defs.setIfInBounds i.res.toNat (some k) := by
      rw [← hdefs]
      rfl
    rw [hset, Array.getElem?_setIfInBounds]
    simp only [hyes, true_and]
    split_ifs with hv hin
    · rfl
    · omega
    · rfl

theorem size_instr (h : l.instr k i = .ok l') :
    l'.ends.size = l.ends.size ∧ l'.defs.size = l.defs.size := by
  obtain ⟨hsize, hdefs⟩ := size_uses l k i.op.operands
  rcases (instr_cases h).2 with ⟨-, rfl⟩ | ⟨-, -, rfl⟩
  · exact ⟨hsize, by rw [hdefs]⟩
  · refine ⟨Array.size_modify.trans hsize, Array.size_setIfInBounds.trans ?_⟩
    rw [hdefs]

/-- A variable is recorded where it is defined last. -/
theorem defs_instrs (h : l.instrs k rest = .ok l') (hsize : l.defs.size = l.ends.size) (v : Nat) :
    (l'.defs[v]?).join = (l.defs[v]?).join ∧ (∀ j, ¬ Defines rest j v) ∨
      ∃ j, Defines rest j v ∧ (l'.defs[v]?).join = some (k + j) := by
  induction rest generalizing l k with
  | nil =>
    cases h
    refine Or.inl ⟨rfl, ?_⟩
    rintro j ⟨i, hi, -⟩
    cases hi
  | cons i rest ih =>
    obtain ⟨mid, hmid, h⟩ := Except.bind_eq_ok.mp h
    obtain ⟨hends, hdefs⟩ := size_instr hmid
    rcases ih h (by omega) with ⟨hsame, hno⟩ | ⟨j, ⟨i', hi', hv⟩, hj⟩
    · rw [hsame, defs_instr hmid hsize]
      split_ifs with hv
      · exact Or.inr ⟨0, ⟨i, rfl, hv⟩, rfl⟩
      · refine Or.inl ⟨rfl, ?_⟩
        rintro (_ | j) ⟨i', hi', hv'⟩
        · cases hi'
          exact hv hv'
        · exact hno j ⟨i', hi', hv'⟩
    · exact Or.inr ⟨j + 1, ⟨i', hi', hv⟩, by rw [hj]; congr 1; omega⟩

theorem undeclared_of_declares {vs : List Value}
    (hall : ∀ t id, .var t id ∈ vs → l.declares id = true) : l.undeclared vs = none := by
  rw [undeclared, getLast?_eq_none_iff, filterMap_eq_nil_iff]
  intro v hv
  cases v with
  | const t x => rfl
  | var t id => simp [hall t id hv]

/-- Instructions that name declared variables only have their lives. -/
theorem exists_instrs (l : Lives) (k : Nat) (rest : List Dynarec.Instr) (hall : ∀ i ∈ rest,
      (∀ t id, .var t id ∈ i.op.operands → l.declares id = true) ∧
        (i.hasResult = true → l.declares i.res = true)) :
    ∃ l', l.instrs k rest = .ok l' := by
  induction rest generalizing l k with
  | nil => exact ⟨l, rfl⟩
  | cons i rest ih =>
    have hdeclares {l' : Lives} (hsize : l'.ends.size = l.ends.size) (id : Int) :
        l'.declares id = l.declares id := by
      rw [declares, declares, hsize]
    obtain ⟨huses, hres⟩ := hall i mem_cons_self
    obtain ⟨mid, hmid⟩ : ∃ mid, l.instr k i = .ok mid := by
      have hdecl := hdeclares (size_uses l k i.op.operands).1 i.res
      cases hyes : i.hasResult with
      | false => exact ⟨_, by simp [instr, undeclared_of_declares huses, hyes]; rfl⟩
      | true =>
        rw [hres hyes] at hdecl
        exact ⟨_, by simp [instr, undeclared_of_declares huses, hyes, hdecl]; rfl⟩
    obtain ⟨l', hl'⟩ := ih mid (k + 1) fun i' hi' => by
      simp only [hdeclares (size_instr hmid).1]
      exact hall i' (mem_cons_of_mem _ hi')
    exact ⟨l', Except.bind_eq_ok.mpr ⟨mid, hmid, hl'⟩⟩

end Lives

/-- Two homes that cannot keep two values: the same register, or common bytes of the frame. -/
def Home.Clashes (a b : Home) : Prop :=
  (∃ r, a = .reg r ∧ b = .reg r) ∨
    ∃ disp size disp' size', a.range? = some (disp, size) ∧ b.range? = some (disp', size') ∧
      disp < disp' + size' ∧ disp' < disp + size

namespace Homes

section Graph

variable (T : g.Typed) {h : Homes}
include T

/-- Every checked graph has homes. -/
theorem exists_ofGraph : ∃ h, ofGraph g = .ok h := by
  have hdeclared {p : Place} {v : Int} {t : Ty} (hp : g.DefinesAt p v t)
      (defs : Array (Option Nat)) :
      Lives.declares ⟨defs, Array.replicate g.varCount.toNat 0⟩ v = true := by
    obtain ⟨-, hnat, hlt, -⟩ := T.defines_fresh hp
    simp only [Lives.declares, Array.size_replicate, Bool.and_eq_true, decide_eq_true_eq]
    omega
  obtain ⟨l, hl⟩ := Lives.exists_instrs
    ⟨Array.replicate g.varCount.toNat none, Array.replicate g.varCount.toNat 0⟩ 0 g.instrs
    fun i hi => by
      obtain ⟨k, hk⟩ := getElem?_of_mem hi
      obtain ⟨p, hp, -⟩ := exists_place hk
      refine ⟨fun t id hid => ?_, fun hyes => hdeclared ⟨i, hp, hyes, rfl, rfl⟩ _⟩
      obtain ⟨q, -, -, hq⟩ := T.exists_def hp hid
      exact hdeclared hq _
  exact ⟨_, Except.bind_eq_ok.mpr ⟨l, hl, rfl⟩⟩

omit T in
theorem before_of_index_lt (hq : g.instrAt? q = some i) (hlt : index g p < index g q) :
    p.Before q := by
  rcases Place.before_or_eq_or_before p q with hpq | rfl | hqp
  · exact hpq
  · omega
  · have := index_lt hq hqp
    omega

variable (hh : ofGraph g = .ok h)
include hh

/-- A life that goes on behind its definition ends with a use. -/
theorem usesAt_of_lt_endOf {v : Int} {t : Ty} (hp : g.DefinesAt p v t)
    (hlt : index g p < h.lives.endOf v.toNat) :
    ∃ s, g.UsesAt s v ∧ index g s = h.lives.endOf v.toNat := by
  have hstart : Lives.endOf ⟨Array.replicate g.varCount.toNat none,
      Array.replicate g.varCount.toNat 0⟩ v.toNat = 0 := by
    show ((Array.replicate g.varCount.toNat 0)[v.toNat]?).getD 0 = 0
    rw [Array.getElem?_replicate]
    split_ifs <;> rfl
  rcases Lives.endOf_instrs (ofGraph_lives hh).1 v.toNat with hsame | ⟨j, i, hi, hend, htouch⟩
  · omega
  · rw [Nat.zero_add] at hend
    obtain ⟨s, hs, rfl⟩ := exists_place hi
    refine ⟨s, ?_, hend.symm⟩
    rcases htouch with ⟨t', id, hid, hv⟩ | ⟨hyes, hres⟩
    · obtain ⟨q, -, -, hq⟩ := T.exists_def hs hid
      have hid' := (T.defines_fresh hq).2.1
      have hv' := (T.defines_fresh hp).2.1
      obtain rfl : id = v := by omega
      exact ⟨i, t', hs, hid⟩
    · -- the definition is not behind itself
      have honce := (plain_instrs T).once (defines_index hp) ⟨i, hi, hyes, hres⟩
      omega

/-- Registers are busy with variables that are defined before and used behind. -/
theorem busy_iff (hq : g.instrAt? q = some i) (r : Reg) :
    Busy g.instrs h (index g q) r ↔ ∃ v p t s, g.DefinesAt p v t ∧ p.Before q ∧ h.get v = .reg r ∧
      g.UsesAt s v ∧ q.Before s := by
  constructor
  · rintro ⟨v, ⟨j, hj, hdef⟩, hr, hend⟩
    obtain ⟨p, t, hp, rfl⟩ := definesAt_of_defines T hdef
    obtain ⟨s, hs, hindex⟩ := usesAt_of_lt_endOf T hh hp (by simp only [Int.toNat_natCast]; omega)
    obtain ⟨is, -, his, -⟩ := id hs
    refine ⟨v, p, t, s, hp, before_of_index_lt hq hj, by rw [get_natCast, hr], hs, ?_⟩
    rw [Int.toNat_natCast] at hindex
    exact before_of_index_lt his (by omega)
  · rintro ⟨v, p, t, s, hp, hpq, hr, ⟨is, t', his, huse⟩, hqs⟩
    have halive := (ofGraph_sound T hh).alive his huse
    have hlt := index_lt hq hqs
    obtain ⟨-, hr⟩ := get_eq hr (by simp)
    obtain ⟨ip, hip, -⟩ := id hp
    exact ⟨v.toNat, ⟨index g p, index_lt hip hpq, defines_index hp⟩, hr, by omega⟩

theorem defs_of_homeOf {v : Nat} (hne : h.homeOf v ≠ .none) :
    ∃ j, (h.lives.defs[v]?).join = some j ∧ Defines g.instrs j v := by
  rw [← get_natCast] at hne
  obtain ⟨p, t, hp⟩ := (ofGraph_sound T hh).given hne
  have hv : Defines g.instrs (index g p) v := defines_index hp
  rcases Lives.defs_instrs (ofGraph_lives hh).1 (by simp) v with ⟨-, hno⟩ | ⟨j, hj, heq⟩
  · exact absurd hv (hno _)
  · exact ⟨j, by rw [heq, Nat.zero_add], hj⟩

theorem isLiveAcross_eq_some {k v : Nat} {r : Reg} :
    h.isLiveAcross k v = some r ↔ r.survivesCall = false ∧ (∃ j < k, Defines g.instrs j v) ∧
      h.homeOf v = .reg r ∧ k < h.lives.endOf v := by
  have hlive {r' : Reg} (hr : h.homes[v]? = some (.reg r')) : h.isLiveAcross k v = some r ↔
      r'.survivesCall = false ∧ (∃ j < k, Defines g.instrs j v) ∧ r' = r ∧
        k < h.lives.endOf v := by
    obtain ⟨j, hj, hv⟩ := defs_of_homeOf T hh (v := v) (by rw [homeOf, hr]; simp)
    have hbefore : j < k ↔ ∃ j < k, Defines g.instrs j v := by
      refine ⟨fun hlt => ⟨j, hlt, hv⟩, ?_⟩
      rintro ⟨j', hlt, hv'⟩
      rwa [(plain_instrs T).once hv hv']
    rw [← hbefore]
    simp only [isLiveAcross, hr, hj, Lives.endOf]
    split_ifs with hall
    · simp only [Bool.and_eq_true, Bool.not_eq_true', decide_eq_true_eq] at hall
      simp [hall]
    · simp only [Bool.and_eq_true, Bool.not_eq_true', decide_eq_true_eq] at hall
      simp only [false_iff]
      rintro ⟨hsaved, hlt, -, hend⟩
      exact hall ⟨⟨hsaved, hlt⟩, hend⟩
  cases hhome : h.homes[v]? with
  | none => simp [isLiveAcross, homeOf, hhome]
  | some home =>
    cases home with
    | reg r' =>
      rw [hlive hhome, homeOf, hhome, Option.getD_some, Home.reg.injEq]
      refine ⟨?_, ?_⟩ <;>
      · rintro ⟨hsaved, hdef, rfl, hend⟩
        exact ⟨hsaved, hdef, rfl, hend⟩
    | none | spill | slot => simp [isLiveAcross, homeOf, hhome]

/-- The registers that are saved around an instruction are the busy ones that a call does not
preserve. -/
theorem mem_liveAcross {k : Nat} {r : Reg} :
    r ∈ h.liveAcross k ↔ r.survivesCall = false ∧ Busy g.instrs h k r := by
  rw [liveAcross, mem_eraseDups, mem_filterMap]
  simp only [isLiveAcross_eq_some T hh, mem_range]
  constructor
  · rintro ⟨v, -, hsaved, hbusy⟩
    exact ⟨hsaved, v, hbusy⟩
  · rintro ⟨hsaved, v, hbusy⟩
    refine ⟨v, ?_, hsaved, hbusy⟩
    obtain ⟨j, -, hdef⟩ := hbusy.1
    rw [(ofGraph_lives hh).2]
    exact (plain_instrs T).declared hdef

/-- Between a definition and a use nobody takes the home of the variable. -/
theorem not_clashes {s : Place} {v u : Int} {t t' : Ty} (hp : g.DefinesAt p v t)
    (hq : g.DefinesAt q u t') (hs : g.UsesAt s v) (hpq : p.Before q) (hqs : q.Before s) :
    ¬ (h.get v).Clashes (h.get u) := by
  have hsound := ofGraph_sound T hh
  rintro (⟨r, hv, hu⟩ | ⟨disp, size, disp', size', hv, hu, hlt, hlt'⟩)
  · obtain ⟨i, t₀, hi, huse⟩ := hs
    obtain ⟨j, hj, -⟩ := id hq
    have hend := hsound.apart hpq hp hq hv hu
    have halive := hsound.alive hi huse
    have hbehind := index_lt hj hqs
    omega
  · have hne : v ≠ u := by
      rintro rfl
      exact Place.Before.irrefl p (T.defines_unique hp hq ▸ hpq)
    rcases hsound.disjoint hne hv hu with hle | hle <;> omega

/-- A variable has a home just if it is defined. -/
theorem get_ne_none_iff {v : Int} : h.get v ≠ .none ↔ ∃ p t, g.DefinesAt p v t := by
  refine ⟨(ofGraph_sound T hh).given, ?_⟩
  rintro ⟨p, t, i, hi, hyes, rfl, -⟩ hnone
  have hsuits := (ofGraph_sound T hh).settled hi hyes
  rw [hnone] at hsuits
  unfold Home.Suits at hsuits
  split at hsuits <;> simp at hsuits

theorem exists_slot_iff (hi : g.instrAt? p = some i) (hyes : i.hasResult = true) :
    (∃ disp size, h.get i.res = .slot disp size) ↔ ∃ t, i.op = .alloc t := by
  have hsuits := (ofGraph_sound T hh).settled hi hyes
  constructor
  · rintro ⟨disp, size, hslot⟩
    by_contra hno
    rw [hslot, Home.suits_of_not_alloc fun t ht => hno ⟨t, ht⟩] at hsuits
    simp at hsuits
  · rintro ⟨t, hop⟩
    obtain ⟨disp, hslot⟩ := (Home.suits_of_alloc hop).mp hsuits
    exact ⟨disp, t.bytes, hslot⟩

theorem exists_spill_iff (hq : g.instrAt? q = some i) (hyes : i.hasResult = true)
    (hop : ∀ t, i.op ≠ .alloc t) :
    (∃ disp size, h.get i.res = .spill disp size) ↔ ∀ r ∈ pool, ∃ v p t s,
      g.DefinesAt p v t ∧ p.Before q ∧ h.get v = .reg r ∧ g.UsesAt s v ∧ q.Before s := by
  have hsound := ofGraph_sound T hh
  simp only [← busy_iff T hh hq, ← hsound.spilled hq hyes hop]
  constructor
  · rintro ⟨disp, size, hspill⟩
    have hsuits := hsound.settled hq hyes
    rw [hspill, Home.suits_of_not_alloc hop] at hsuits
    rcases hsuits with ⟨r, hr⟩ | ⟨disp', hdisp⟩
    · cases hr
    · exact ⟨disp', hspill.trans hdisp⟩
  · rintro ⟨disp, hspill⟩
    exact ⟨disp, _, hspill⟩

theorem toInt_frameMem (hsmall : savedSize + h.frame ≤ 2 ^ 31) {v disp : Int} {size : Nat}
    (hv : (h.get v).range? = some (disp, size)) : (frameMem disp).disp.toInt = disp := by
  obtain ⟨hlow, hhigh⟩ := (ofGraph_sound T hh).inside hv
  have hsaved : savedSize = 40 := rfl
  have hword : Int32.size = 2 ^ 32 := rfl
  rw [frameMem, Int32.toInt_ofInt, hword]
  exact Int.bmod_eq_of_le (by omega) (by omega)

end Graph

theorem instrAt?_of_mem_along {labels : List Nat} (hp : p ∈ g.along labels) :
    ∃ i, g.instrAt? p = some i := by
  obtain ⟨k, -, hp⟩ := mem_flatMap.mp hp
  obtain ⟨n, hn, rfl⟩ := mem_map.mp hp
  rw [mem_range] at hn
  cases hb : g.blocks[k]? with
  | none => simp [hb] at hn
  | some b =>
    rw [hb] at hn
    exact ⟨_, Graph.instrAt?_eq_some.mpr ⟨b, hb, getElem?_eq_getElem hn⟩⟩

/-- Homes that last as long as they are needed, and are not taken without need. -/
structure Lasting (g : Graph) (h : Homes) : Prop where
  /-- On a path, nothing between the definition of a variable and a use of it takes its home. -/
  kept : ∀ {labels front middle back p s v t}, g.IsPath labels →
    g.along labels = front ++ p :: (middle ++ s :: back) → g.DefinesAt p v t → g.UsesAt s v →
      ∀ q ∈ middle, ∀ {u t'}, g.DefinesAt q u t' → ¬ (h.get v).Clashes (h.get u)
  housed : ∀ {v}, h.get v ≠ .none ↔ ∃ p t, g.DefinesAt p v t
  slots : ∀ {p i}, g.instrAt? p = some i → i.hasResult = true →
    ((∃ disp size, h.get i.res = .slot disp size) ↔ ∃ t, i.op = .alloc t)
  scratch : ∀ {v r}, h.get v = .reg r → r ∉ [.rax, .rcx, .rdx, .rsp, .rbp]
  /-- A variable is spilled just where every register of the pool has a variable that is defined
  before and used behind, in label order. -/
  spilled : ∀ {q i}, g.instrAt? q = some i → i.hasResult = true → (∀ t, i.op ≠ .alloc t) →
    ((∃ disp size, h.get i.res = .spill disp size) ↔ ∀ r ∈ pool, ∃ v p t s,
      g.DefinesAt p v t ∧ p.Before q ∧ h.get v = .reg r ∧ g.UsesAt s v ∧ q.Before s)
  /-- Every register that a call does not preserve is saved, if a variable lives there that is
  defined before the call and used behind it on some path. -/
  saved : ∀ {labels front middle middle' back p c s v t r}, g.IsPath labels →
    g.along labels = front ++ p :: (middle ++ c :: (middle' ++ s :: back)) →
      g.DefinesAt p v t → g.UsesAt s v → h.get v = .reg r → r.survivesCall = false →
        r ∈ h.liveAcross (index g c)
  /-- No other register is saved. -/
  needed : ∀ {c i r}, g.instrAt? c = some i → r ∈ h.liveAcross (index g c) →
    r.survivesCall = false ∧ ∃ v p t s, g.DefinesAt p v t ∧ p.Before c ∧ h.get v = .reg r ∧
      g.UsesAt s v ∧ c.Before s
  /-- In a frame that displacements can span, a home is where it says it is. -/
  spanned : ∀ {v disp size}, savedSize + h.frame ≤ 2 ^ 31 →
    (h.get v).range? = some (disp, size) → (frameMem disp).disp.toInt = disp

/-- Twelve variables are live at once. -/
def crowd : Graph where
  blocks := #[⟨0, (range 12).map (fun k => ⟨.read 0, .i32, k⟩) ++
    (range 12).map (fun k => ⟨.write 0 (.var .i32 k), .void, 0⟩) ++ [⟨.exit, .void, 0⟩]⟩]
  varCount := 12

end Homes

end Native

end Dynarec
