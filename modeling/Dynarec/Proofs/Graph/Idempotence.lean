import Dynarec.Proofs.Graph.Sweep

/-!
# A second sweep

The sweep over a graph that it has swept changes nothing. Nothing need be known of the graph but that its
variables are declared: it may be ill typed, use variables in front of their definitions or define them
twice. The invariant `Sweep.Mirrors` relates the first sweep to the second one, which goes through what the
first one keeps: both know the same of the registers and have the same next variable, and every value that
the first one may put in the place of a variable stands for itself in the second.
-/
namespace Dynarec

variable {r s s' : Sweep} {us vs : List Value} {u v : Value} {i : Instr}

namespace Sweep

/-- `v` stands for itself: it is a constant, or one of the new variables. -/
inductive Settled (r : Sweep) : Value → Prop where
  | const (t : Ty) (x : UInt64) : Settled r (.const t x)
  | var {t n} (hlt : n < r.next) (h : r.subst[n]? = some (.var t n)) : Settled r (.var t n)

theorem Settled.replaces (h : r.Settled v) : r.Replaces v v := by
  cases h with
  | const t x => rfl
  | var hlt h => rwa [Replaces, entryAt?_natCast]

theorem substitute_settled (h : ∀ v ∈ vs, r.Settled v) : r.substitute vs = (vs, true) := by
  induction vs with
  | nil => rfl
  | cons v vs ih =>
    exact substitute_cons (h v List.mem_cons_self).replaces
      (ih fun u hu => h u (List.mem_cons_of_mem v hu))

/-- `r` is about to sweep what `s` keeps from here on. -/
structure Mirrors (s r : Sweep) : Prop where
  known : r.known = s.known
  next : r.next = s.next
  value : ∀ {n : Nat} {u}, s.subst[n]? = some u → r.Settled u
  held : ∀ p ∈ s.known, r.Settled p.2

/-- What an instruction folds to depends on the registers that are known, on its operation and on its
type. -/
theorem fold_congr (h : r.known = s.known) (i : Instr) (n : Int) :
    r.fold { i with res := n } = s.fold i := by
  simp only [fold, h]

theorem Settled.mono {r' : Sweep} (h : r.Settled v) (hnext : r.next ≤ r'.next)
    (hsubst : ∀ n < r.next, r'.subst[n]? = r.subst[n]?) : r'.Settled v := by
  cases h with
  | const t x => exact .const t x
  | var hlt h => exact .var (by omega) ((hsubst _ hlt).trans h)

/-- The next variable is defined, and keeps its number. -/
def define (r : Sweep) (t : Ty) : Sweep :=
  { r with subst := r.subst.setIfInBounds r.next (.var t r.next), next := r.next + 1 }

theorem Settled.define (h : r.Settled v) (t : Ty) : (r.define t).Settled v := by
  refine h.mono (Nat.le_succ r.next) fun n hn => ?_
  rw [Sweep.define, Array.getElem?_setIfInBounds, if_neg (by omega)]

theorem settle_numbered (hfold : r.fold i = none) (hres : i.hasResult = true)
    (hnumber : i.res = r.next) (hroom : r.next < r.subst.size) :
    r.settle i = some (some i, (r.define i.ty).learn i) := by
  obtain ⟨op, t, n⟩ := i
  subst hnumber
  simp [settle, hfold, hres, Sweep.record, hroom, Sweep.define]

namespace Mirrors

theorem record (h : Mirrors s r) (hu : r.Settled u) (k : Nat) :
    Mirrors { s with subst := s.subst.setIfInBounds k u } r where
  known := h.known
  next := h.next
  held := h.held
  value := by
    intro n w hw
    rw [Array.getElem?_setIfInBounds] at hw
    split_ifs at hw
    · exact Option.some.inj hw ▸ hu
    · exact h.value hw

theorem define (h : Mirrors s r) {t : Ty} (hnew : (r.define t).Settled (.var t s.next)) (k : Nat) :
    Mirrors { s with subst := s.subst.setIfInBounds k (.var t s.next), next := s.next + 1 }
      (r.define t) := by
  have hmid : Mirrors { s with next := s.next + 1 } (r.define t) :=
    ⟨h.known, by simp [Sweep.define, h.next], fun hu => (h.value hu).define t,
      fun p hp => (h.held p hp).define t⟩
  exact hmid.record hnew k

theorem learn (h : Mirrors s r) (hops : ∀ v ∈ i.op.operands, r.Settled v)
    (hres : i.hasResult = true → r.Settled i.result) : Mirrors (s.learn i) (r.learn i) := by
  have hsettled {v : Value} (hv : r.Settled v) : (r.learn i).Settled v :=
    hv.mono (by rw [learn_next]) (by simp [learn_subst])
  refine ⟨?_, by rw [learn_next, learn_next, h.next], fun hu => ?_, fun p hp => hsettled ?_⟩
  · unfold Sweep.learn
    split <;> simp [h.known]
  · rw [learn_subst] at hu
    exact hsettled (h.value hu)
  · obtain ⟨op, t, n⟩ := i
    cases op with
    | read reg =>
      rcases List.mem_cons.mp hp with rfl | hp
      · exact hres rfl
      · exact h.held p hp
    | write reg x =>
      rcases List.mem_cons.mp hp with rfl | hp
      · exact hops x (by simp [Op.operands])
      · exact h.held p hp
    | call target ps => cases hp
    | _ => exact h.held p hp

theorem fold (h : Mirrors s r) (hops : ∀ v ∈ i.op.operands, r.Settled v) (hfold : s.fold i = some u)
    : r.Settled u := by
  rcases (fold_cases hfold).1 with ⟨t, x, rfl⟩ | hu | ⟨reg, hreg⟩
  · exact .const t _
  · exact hops u hu
  · obtain ⟨before, behind, hknown, -⟩ := List.lookup_eq_some_iff.mp hreg
    exact h.held (reg, u) (by simp [hknown])

theorem replaces (h : Mirrors s r) (hu : s.Replaces v u) : r.Settled u := by
  cases v with
  | const t x =>
    rw [Replaces] at hu
    exact hu ▸ .const t x
  | var t n => exact h.value (entryAt?_eq_some hu).2

theorem substitute (h : Mirrors s r) (hus : s.substitute vs = (us, true)) :
    us.length = vs.length ∧ ∀ u ∈ us, r.Settled u := by
  have hall := forall₂_substitute hus
  refine ⟨hall.length_eq.symm, ?_⟩
  clear hus
  induction hall with
  | nil => simp
  | cons hvu _ ih =>
    rw [List.forall_mem_cons]
    exact ⟨h.replaces hvu, ih⟩

/-- One instruction: it goes away and the second sweep never sees it, or the second sweep keeps what the
first one makes of it. -/
theorem settle (h : Mirrors s r) (hus : s.substitute i.op.operands = (us, true))
    {kept : Option Instr} (hs : s.settle { i with op := i.op.withOperands us } = some (kept, s'))
    (hroom : s'.next ≤ r.subst.size) :
    (kept = none ∧ Mirrors s' r) ∨
      ∃ i' r', kept = some i' ∧ r.substitute i'.op.operands = (i'.op.operands, true) ∧
        r.settle i' = some (some i', r') ∧ Mirrors s' r' := by
  obtain ⟨hlen, hsettled⟩ := h.substitute hus
  have hops : (i.op.withOperands us).operands = us := Op.operands_withOperands hlen
  rcases settle_cases hs with ⟨u, hfold, rfl, rfl⟩ | ⟨hfold, hres, rfl, rfl⟩ | ⟨hfold, hres, rfl, rfl⟩
  · have hu := h.fold (by rw [hops]; exact hsettled) hfold
    exact Or.inl ⟨rfl, h.record hu i.res.toNat⟩
  · have hlt : r.next < r.subst.size := by
      rw [learn_next] at hroom
      rwa [h.next]
    have hnew : (r.define i.ty).Settled (.var i.ty s.next) := by
      rw [← h.next]
      exact .var (Nat.lt_succ_self _) (by simp [Sweep.define, hlt])
    refine Or.inr ⟨_, _, rfl, ?_, settle_numbered ?_ hres (by rw [h.next]) hlt,
      (h.define hnew i.res.toNat).learn ?_ fun _ => hnew⟩
    · rw [hops]
      exact substitute_settled hsettled
    · rwa [fold_congr h.known { i with op := i.op.withOperands us }]
    · rw [hops]
      exact fun v hv => (hsettled v hv).define i.ty
  · have hfold' := (fold_congr h.known { i with op := i.op.withOperands us } i.res).trans hfold
    refine Or.inr ⟨_, r.learn _, rfl, ?_, ?_, h.learn ?_ fun hyes => ?_⟩
    · rw [hops]
      exact substitute_settled hsettled
    · simp [Sweep.settle, hfold', hres]
    · rwa [hops]
    · rw [hres] at hyes
      cases hyes

/-- What the first sweep keeps of a block, the second one keeps as it is. -/
theorem instrs {is is' : List Instr} (h : Mirrors s r) (hs : s.instrs is = (is', s', true))
    (hroom : s'.next ≤ r.subst.size) : ∃ r', r.instrs is' = (is', r', true) ∧ Mirrors s' r' := by
  induction is generalizing s r is' with
  | nil =>
    cases hs
    exact ⟨r, rfl, h⟩
  | cons i rest ih =>
    obtain ⟨us, kept, mid, rest', hus, hset, hrest, rfl⟩ := instrs_cons hs
    have hmid : mid.next ≤ r.subst.size := (instrs_mono hrest).2.trans hroom
    rcases h.settle hus hset hmid with ⟨rfl, hm⟩ | ⟨i', r₁, rfl, hsub, hkeep, hm⟩
    · exact ih hm hrest hroom
    · obtain ⟨r', hr', hm'⟩ := ih hm hrest (by rw [(settle_mono hkeep).1]; exact hroom)
      refine ⟨r', ?_, hm'⟩
      simp [Sweep.instrs, hsub, hkeep, hr']

theorem blocks {bs bs' : List Block} (h : Mirrors s r) (hs : s.blocks bs = (bs', s', true))
    (hroom : s'.next ≤ r.subst.size) :
    ∃ r', r.blocks bs' = (bs', r', true) ∧ r'.next = s'.next := by
  induction bs generalizing s r bs' with
  | nil =>
    cases hs
    exact ⟨r, rfl, h.next⟩
  | cons b rest ih =>
    obtain ⟨is', mid, rest', hi, hrest, rfl⟩ := blocks_cons hs
    have hentry : Mirrors s.atEntry r.atEntry :=
      ⟨rfl, h.next, fun hu => (h.value hu).mono le_rfl fun _ _ => rfl, by simp [atEntry]⟩
    have hmid : mid.next ≤ r.subst.size := (blocks_mono hrest).2.trans hroom
    obtain ⟨r₁, hr₁, hm⟩ := hentry.instrs hi hmid
    have hsize : r₁.subst.size = r.subst.size := (instrs_mono hr₁).1
    obtain ⟨r', hr', hnext⟩ := ih hm hrest (by rw [hsize]; exact hroom)
    exact ⟨r', by simp [Sweep.blocks, ← atEntry.eq_def, hr₁, hr'], hnext⟩

end Mirrors

end Sweep

namespace Graph

theorem mirrors_start (n m : Nat) : Sweep.Mirrors { subst := Array.replicate n Value.none }
    { subst := Array.replicate m Value.none } where
  known := rfl
  next := rfl
  held := by simp
  value := by
    intro k u hu
    rw [Array.getElem?_replicate] at hu
    split_ifs at hu
    exact Option.some.inj hu ▸ .const Ty.void 0

/-- Simplification is idempotent on every graph whose variables are declared, well typed or not: a second
sweep leaves blocks, instructions, operands, numbers and the number of variables as they are. Both sweeps
get to their end wherever their tables can be made, so it is not that they give up. -/
theorem simplify_simplify {g : Graph} (h : g.InRange) :
    g.simplify.simplify = g.simplify ∧ g.sweep.2 = g.hasRoomFor 24 ∧
      g.simplify.sweep.2 = g.simplify.hasRoomFor 24 := by
  by_cases hroom : g.hasRoomFor 24 = true
  · have hcount : ((Array.replicate g.varCount.toNat Value.none).size : Int) = g.varCount := by
      simp only [hasRoomFor, Host.canAllocate, Bool.and_eq_true, decide_eq_true_eq] at hroom
      simp [hroom.1]
    have hrange : ∀ b ∈ g.blocks.toList, ∀ i ∈ b.instrs, i.InRange g.varCount :=
      fun b hb i hi => h i (List.mem_flatMap.mpr ⟨b, hb, hi⟩)
    obtain ⟨bs', s', hs⟩ := Sweep.blocks_of_inRange
      (s := { subst := Array.replicate g.varCount.toNat Value.none }) hcount hrange
    have hsweep : g.sweep = (⟨bs'.toArray, s'.next⟩, true) := by simp [sweep, hroom, hs]
    obtain ⟨r', hr', hnext⟩ := (mirrors_start g.varCount.toNat s'.next).blocks hs (by simp)
    have hagain : g.simplify.sweep = (g.simplify, g.simplify.hasRoomFor 24) := by
      rw [simplify, hsweep]
      by_cases hroom' : hasRoomFor ⟨bs'.toArray, s'.next⟩ 24 = true
      · simp [sweep, hroom', hr', hnext]
      · simp [sweep, hroom']
    exact ⟨by rw [simplify, hagain], by rw [hsweep, hroom], by rw [hagain]⟩
  · have hsame : g.sweep = (g, g.hasRoomFor 24) := by simp [sweep, hroom]
    have hsimp : g.simplify = g := by rw [simplify, hsame]
    exact ⟨by rw [hsimp, hsimp], by rw [hsame], by rw [hsimp, hsame]⟩

/-- Uses a variable in front of its definition, defines one twice, reads a register at two widths and adds
at a width that its operands do not have. -/
def muddled : Graph where
  blocks := #[
    ⟨0, [⟨.binop .add (.var .i64 3) (.const .i64 0), .i64, 0⟩, ⟨.read 1, .i64, 1⟩,
      ⟨.write 2 (.var .i64 1), .void, 0⟩, ⟨.read 2, .i64, 2⟩, ⟨.read 2, .i8, 2⟩,
      ⟨.binop .xor (.var .i64 2) (.var .i64 0), .i32, 3⟩, ⟨.cvt .zext (.var .i8 3), .i8, 1⟩,
      ⟨.icmp .ult (.var .i64 1) (.var .i8 0), .i1, 1⟩, ⟨.br (.var .i1 1) 7 0, .void, 0⟩]⟩,
    ⟨4, [⟨.read 2, .i64, 0⟩, ⟨.store (.var .i1 0) (.var .i64 2), .void, 0⟩]⟩]
  varCount := 4

theorem simplify_simplify_muddled :
    muddled.InRange ∧ muddled.typecheck ≠ .accepted ∧ muddled.simplify ≠ muddled ∧
      muddled.simplify.simplify = muddled.simplify := by
  have hrange : muddled.InRange := by decide +kernel
  exact ⟨hrange, by decide +kernel, by decide +kernel, (simplify_simplify hrange).1⟩

end Graph

end Dynarec
