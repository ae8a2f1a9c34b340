import Dynarec.Graph.Dominance
import Mathlib.Tactic

/-!
# Immediate dominators

The table of immediate dominators is read as a forest: climbing from a block goes to smaller labels, and
`Above` is the ancestor relation of that forest. The pass keeps one invariant: the entry of a block lies
above the sources of all edges to it that were gone through, and whatever lies above all of those lies
above the entry. Since edges go forward, the entries of their sources are final by then. So at the end the
forest is that of the dominators, which are defined by the paths of the graph.
-/
namespace Dynarec

open List

variable {idoms idoms' : Idoms} {a k count source target : Nat} {t : Int} {bs : List Block}

theorem Except.bind_eq_ok {ε α β : Type} {x : Except ε α} {f : α → Except ε β} {b : β} :
    (x >>= f) = .ok b ↔ ∃ a, x = .ok a ∧ f a = .ok b := by
  cases x <;> simp [bind, Except.bind]

theorem Except.bind₂_eq_ok {ε α β γ : Type} {x : Except ε α} {y : α → Except ε β}
    {f : α → β → Except ε γ} {c : γ} :
    (x >>= fun a => y a >>= f a) = .ok c ↔ ∃ a b, x = .ok a ∧ y a = .ok b ∧ f a b = .ok c := by
  simp only [bind_eq_ok, exists_and_left]

namespace Idoms

variable {b c : Nat}

/-- Climbing goes to smaller labels until it reaches block 0. -/
def Descending (idoms : Idoms) : Prop :=
  ∀ a, 0 < a → idoms.get a < a

/-- `a` is met when climbing from `b`. -/
inductive Above (idoms : Idoms) (a : Nat) : Nat → Prop
  | refl : Above idoms a a
  | step {b : Nat} : idoms.get b < b → Above idoms a (idoms.get b) → Above idoms a b

theorem Above.le (h : Above idoms a b) : a ≤ b := by
  induction h with
  | refl => exact le_rfl
  | step hlt _ ih => exact ih.trans hlt.le

theorem Above.trans (hab : Above idoms a b) (hbc : Above idoms b c) : Above idoms a c := by
  induction hbc with
  | refl => exact hab
  | step hlt _ ih => exact .step hlt ih

theorem climb_above (idoms : Idoms) (a b : Nat) : Above idoms (idoms.climb a b) b := by
  fun_induction climb idoms a b with
  | case1 b hab hlt ih => exact .step hlt ih
  | case2 b _ _ => exact .refl
  | case3 b _ => exact .refl

theorem climb_of_above (h : Above idoms a b) : idoms.climb a b = a := by
  induction h with
  | refl => rw [climb, if_neg (lt_irrefl a)]
  | step hlt h ih => rw [climb, if_pos (h.le.trans_lt hlt), if_pos hlt, ih]

theorem dominates_iff_above : idoms.dominates a b = true ↔ Above idoms a b := by
  rw [dominates, beq_iff_eq]
  constructor
  · intro h
    have hc := climb_above idoms a b
    rwa [h] at hc
  · exact climb_of_above

theorem dominates_self (idoms : Idoms) (a : Nat) : idoms.dominates a a = true :=
  dominates_iff_above.mpr .refl

theorem dominates_trans (hab : idoms.dominates a b = true) (hbc : idoms.dominates b c = true) :
    idoms.dominates a c = true :=
  dominates_iff_above.mpr ((dominates_iff_above.mp hab).trans (dominates_iff_above.mp hbc))

theorem meet_above (h : idoms.Descending) (a b : Nat) :
    Above idoms (idoms.meet a b) a ∧ Above idoms (idoms.meet a b) b := by
  fun_induction meet idoms a b with
  | case1 b => exact ⟨.refl, .refl⟩
  | case2 a b _ _ hlt ih => exact ⟨.step hlt ih.1, ih.2⟩
  | case3 a b _ hba hlt => exact absurd (h a (by omega)) hlt
  | case4 a b _ _ hlt ih => exact ⟨ih.1, .step hlt ih.2⟩
  | case5 a b hne hba hlt => exact absurd (h b (by omega)) hlt

/-- The nearest common dominator lies below every other one. -/
theorem above_meet (ha : Above idoms c a) (hb : Above idoms c b) :
    Above idoms c (idoms.meet a b) := by
  fun_induction meet idoms a b with
  | case1 b => exact ha
  | case2 a b hne hba hlt ih =>
    cases ha with
    | refl => exact absurd hb.le (by omega)
    | step _ ha => exact ih ha hb
  | case3 a b _ _ _ => exact ha
  | case4 a b hne hba hlt ih =>
    cases hb with
    | refl => exact absurd ha.le (by omega)
    | step _ hb => exact ih ha hb
  | case5 a b _ _ _ => exact hb

/-- Climbing from `b` reads no entry beyond `b`. -/
theorem Above.congr (h : Above idoms a b) (heq : ∀ x ≤ b, idoms'[x]? = idoms[x]?) :
    Above idoms' a b := by
  induction h with
  | refl => exact .refl
  | @step b hlt _ ih =>
    have hb : idoms'.get b = idoms.get b := by simp only [get, heq b le_rfl]
    refine .step (by rwa [hb]) ?_
    rw [hb]
    exact ih fun x hx => heq x (hx.trans hlt.le)

theorem get_eq_of_getElem? {d : Nat} (h : idoms[a]? = some (some d)) : idoms.get a = d := by
  simp [get, h]

@[simp] theorem size_addEdge (idoms : Idoms) (source target : Nat) :
    (idoms.addEdge source target).size = idoms.size := by
  unfold addEdge
  split <;> simp

theorem addEdge_of_ne {x : Nat} (h : x ≠ target) :
    (idoms.addEdge source target)[x]? = idoms[x]? := by
  unfold addEdge
  split <;> rw [Array.getElem?_setIfInBounds, if_neg (Ne.symm h)]

/-- The entry of a block behind one more edge to it: the nearest block above the source and the entry
that it had. -/
theorem addEdge_target (source : Nat) (hd : idoms.Descending) (ht : target < idoms.size) :
    ∃ e, (idoms.addEdge source target)[target]? = some (some e) ∧ Above idoms e source ∧
      (∀ d, idoms[target]? = some (some d) → Above idoms e d) ∧
      ∀ c, Above idoms c source → (∀ d, idoms[target]? = some (some d) → Above idoms c d) →
        Above idoms c e := by
  unfold addEdge
  split
  · rename_i hnone
    refine ⟨source, by simp [ht], .refl, ?_, fun c hc _ => hc⟩
    intro d hsome
    simp [hsome] at hnone
  · rename_i d hsome
    have hm := meet_above hd d source
    have hentry := Option.join_eq_some_iff.mp hsome
    refine ⟨idoms.meet d source, by simp [ht], hm.2, ?_, fun c hc hold => above_meet (hold d hentry) hc⟩
    intro d' hd'
    obtain rfl := Option.some.inj (Option.some.inj (hentry.symm.trans hd'))
    exact hm.1

end Idoms

/-- A pass has gone through the edges `E` between blocks that it reached. -/
structure Scanned (E : Nat → Nat → Prop) (count : Nat) (idoms : Idoms) : Prop where
  size : idoms.size = count
  inside : ∀ {k t}, E k t → k < t ∧ t < count
  reached : ∀ {t}, t < count → ((idoms[t]?).join.isSome ↔ t = 0 ∨ ∃ k, E k t)
  above : ∀ {k t}, E k t → idoms.Above (idoms.get t) k
  below : ∀ {k t c}, E k t → (∀ j, E j t → idoms.Above c j) → idoms.Above c (idoms.get t)

namespace Scanned

variable {E : Nat → Nat → Prop} {b : Nat}

theorem congr {E' : Nat → Nat → Prop} (h : Scanned E count idoms) (hE : ∀ k t, E k t ↔ E' k t) :
    Scanned E' count idoms := by
  obtain rfl : E = E' := by
    funext k t
    exact propext (hE k t)
  exact h

theorem descending (h : Scanned E count idoms) : idoms.Descending := by
  intro t ht
  by_cases hE : ∃ k, E k t
  · obtain ⟨k, hk⟩ := hE
    exact (h.above hk).le.trans_lt (h.inside hk).1
  · have hnone : (idoms[t]?).join = none := by
      rcases Nat.lt_or_ge t count with hlt | hge
      · rw [← Option.not_isSome_iff_eq_none, h.reached hlt]
        rintro (rfl | hk)
        · exact absurd ht (lt_irrefl 0)
        · exact hE hk
      · rw [Array.getElem?_eq_none (h.size.trans_le hge), Option.join_none]
    simpa [Idoms.get, hnone] using ht

/-- One more edge, from the block that the pass is at. -/
theorem addEdge (h : Scanned E count idoms) (hlast : ∀ k t, E k t → k ≤ source)
    (hlt : source < target) (htarget : target < count) :
    Scanned (fun k t => E k t ∨ k = source ∧ t = target) count (idoms.addEdge source target) := by
  have hkeep {x : Nat} (hx : x ≠ target) : (idoms.addEdge source target)[x]? = idoms[x]? :=
    Idoms.addEdge_of_ne hx
  -- what is met from a source does not depend on the entry of the target
  have habove {c j : Nat} (hj : j ≤ source) :
      (idoms.addEdge source target).Above c j ↔ idoms.Above c j :=
    ⟨fun hc => hc.congr fun x hx => (hkeep (by omega)).symm, fun hc => hc.congr fun x hx => hkeep (by omega)⟩
  obtain ⟨e, he, hsource, hold, hmeet⟩ := Idoms.addEdge_target source h.descending
    (show target < idoms.size by rw [h.size]; exact htarget)
  have hget : (idoms.addEdge source target).get target = e := Idoms.get_eq_of_getElem? he
  have hsame {x : Nat} (hx : x ≠ target) : (idoms.addEdge source target).get x = idoms.get x := by
    simp only [Idoms.get, hkeep hx]
  have hentry {k : Nat} (hk : E k target) : idoms[target]? = some (some (idoms.get target)) := by
    obtain ⟨d, hd⟩ := Option.isSome_iff_exists.mp ((h.reached htarget).mpr (Or.inr ⟨k, hk⟩))
    rw [Option.join_eq_some_iff.mp hd, Idoms.get_eq_of_getElem? (Option.join_eq_some_iff.mp hd)]
  refine ⟨by simp [h.size], ?_, ?_, ?_, ?_⟩
  · rintro k t (hk | ⟨rfl, rfl⟩)
    · exact h.inside hk
    · exact ⟨hlt, htarget⟩
  · intro t ht
    by_cases htt : t = target
    · subst htt
      simp [he]
    · rw [hkeep htt, h.reached ht]
      simp [htt]
  · rintro k t (hk | ⟨rfl, rfl⟩)
    · rw [habove (hlast k t hk)]
      by_cases htt : t = target
      · subst htt
        rw [hget]
        exact (hold _ (hentry hk)).trans (h.above hk)
      · rw [hsame htt]
        exact h.above hk
    · rwa [hget, habove le_rfl]
  · intro k t c hk hc
    have hc' {j : Nat} (hj : E j t) : idoms.Above c j := (habove (hlast j t hj)).mp (hc j (Or.inl hj))
    by_cases htt : t = target
    · subst htt
      have hcs := (habove le_rfl).mp (hc source (Or.inr ⟨rfl, rfl⟩))
      rw [hget, habove hsource.le]
      refine hmeet c hcs fun d hd => ?_
      obtain ⟨j, hj⟩ : ∃ j, E j t := by
        rcases (h.reached htarget).mp (by simp [hd]) with rfl | hj
        · exact absurd hlt (Nat.not_lt_zero _)
        · exact hj
      rw [← Idoms.get_eq_of_getElem? hd]
      exact h.below hj fun j hj => hc' hj
    · rcases hk with hk | ⟨-, rfl⟩
      · rw [hsame htt, habove ((h.above hk).le.trans (hlast k t hk))]
        exact h.below hk fun j hj => hc' hj
      · exact absurd rfl htt

end Scanned

namespace Graph

variable {g : Graph}

/-- Block `k` ends in a branch, and `t` is one of its targets. -/
def Edge (g : Graph) (k : Nat) (t : Int) : Prop :=
  ∃ b i c f f', g.blocks[k]? = some b ∧ b.tail? = some i ∧ i.op = .br c f f' ∧ (t = f ∨ t = f')

/-- The blocks of a path from block 0 to a block, the last one first. -/
inductive Way (g : Graph) : Nat → List Nat → Prop
  | start : Way g 0 [0]
  | extend {k t : Nat} {way : List Nat} (h : Way g k way) (hedge : g.Edge k t) : Way g t (t :: way)

/-- Every path from block 0 to `b` passes through `a`. -/
def Dominates (g : Graph) (a b : Nat) : Prop :=
  ∀ way, g.Way b way → a ∈ way

/-- Branches at the end of a block go forward and stay inside the graph. -/
def Forward (g : Graph) : Prop :=
  ∀ {k : Nat} {t}, g.Edge k t → (k : Int) < t ∧ t < g.blocks.size

theorem Edge.source_lt (h : g.Edge k t) : k < g.blocks.size := by
  obtain ⟨b, i, c, f, f', hb, -⟩ := h
  exact (Array.getElem?_eq_some_iff.mp hb).1

theorem edge_iff {b : Block} (hb : g.blocks[k]? = some b) :
    g.Edge k t ↔ ∃ i c f f', b.tail? = some i ∧ i.op = .br c f f' ∧ (t = f ∨ t = f') := by
  constructor
  · rintro ⟨b', i, c, f, f', hb', hi⟩
    cases hb.symm.trans hb'
    exact ⟨i, c, f, f', hi⟩
  · rintro ⟨i, c, f, f', hi⟩
    exact ⟨b, i, c, f, f', hb, hi⟩

theorem Way.mem {way : List Nat} (h : g.Way k way) : k ∈ way := by
  cases h with
  | start | extend _ _ => exact mem_cons_self

theorem addTargets_eq_ok {label : Nat} {i : Instr} {ts : List Int}
    (h : addTargets count i label idoms ts = .ok idoms') :
    ∀ t ∈ ts, (label : Int) < t ∧ t < count := by
  induction ts generalizing idoms with
  | nil => simp
  | cons t rest ih =>
    simp only [addTargets] at h
    split_ifs at h with hbad
    all_goals
      rintro u (_ | ⟨_, hu⟩)
      · omega
      · exact ih h u hu

theorem drop_blocks {b : Block} {rest : List Block} (h : g.blocks.toList.drop k = b :: rest) :
    g.blocks[k]? = some b ∧ g.blocks.toList.drop (k + 1) = rest := by
  constructor
  · have : (g.blocks.toList.drop k)[0]? = some b := by rw [h]; rfl
    simpa [getElem?_drop] using this
  · rw [← drop_drop, h, drop_one, tail_cons]

/-- The edges of the blocks in front of `done` that are reached. -/
def EdgesBefore (g : Graph) (done k t : Nat) : Prop :=
  k < done ∧ g.Edge k t ∧ ∃ way, g.Way k way

section Pass

variable {done : Nat} {b : Block}

theorem edgesBefore_succ {t : Nat} : g.EdgesBefore (done + 1) k t ↔
    g.EdgesBefore done k t ∨ k = done ∧ g.Edge done t ∧ ∃ way, g.Way done way := by
  unfold EdgesBefore
  rw [Nat.lt_succ_iff_lt_or_eq, or_and_right]
  refine or_congr Iff.rfl (and_congr_right fun hk => ?_)
  rw [hk]

theorem reached_iff (hforward : g.Forward) (h : Scanned (g.EdgesBefore done) g.blocks.size idoms)
    {t : Nat} (ht : t < g.blocks.size) (hdone : t ≤ done) :
    (idoms[t]?).join.isSome ↔ ∃ way, g.Way t way := by
  rw [h.reached ht]
  constructor
  · rintro (rfl | ⟨k, -, hedge, way, hway⟩)
    · exact ⟨_, .start⟩
    · exact ⟨_, hway.extend hedge⟩
  · rintro ⟨way, hway⟩
    cases hway with
    | start => exact Or.inl rfl
    | @extend k _ way hway hedge =>
      have := (hforward hedge).1
      exact Or.inr ⟨k, by omega, hedge, way, hway⟩

theorem addTargets_scanned (hforward : g.Forward) (hb : g.blocks[done]? = some b) {i : Instr} {c : Value}
    {t₀ t₁ : Int} (hi : b.tail? = some i) (hop : i.op = .br c t₀ t₁)
    (h : Scanned (g.EdgesBefore done) g.blocks.size idoms) :
    ∃ idoms', addTargets g.blocks.size i done idoms [t₀, t₁] = .ok idoms' ∧
      Scanned (g.EdgesBefore (done + 1)) g.blocks.size idoms' := by
  have hedge {t : Int} : g.Edge done t ↔ t = t₀ ∨ t = t₁ := by
    rw [edge_iff hb]
    simp [hi, hop]
  obtain ⟨hlow₀, hhigh₀⟩ := hforward (hedge.mpr (Or.inl rfl))
  obtain ⟨hlow₁, hhigh₁⟩ := hforward (hedge.mpr (Or.inr rfl))
  obtain ⟨k₀, rfl⟩ := Int.eq_ofNat_of_zero_le (show 0 ≤ t₀ by omega)
  obtain ⟨k₁, rfl⟩ := Int.eq_ofNat_of_zero_le (show 0 ≤ t₁ by omega)
  have hin₀ : ¬ ((k₀ : Int) ≤ done ∨ (g.blocks.size : Int) ≤ k₀) := by omega
  have hin₁ : ¬ ((k₁ : Int) ≤ done ∨ (g.blocks.size : Int) ≤ k₁) := by omega
  have hreached := reached_iff hforward h (Array.getElem?_eq_some_iff.mp hb).1 le_rfl
  simp only [addTargets, hin₀, hin₁, if_false, Int.toNat_natCast]
  by_cases hway : ∃ way, g.Way done way
  · obtain ⟨d, hd⟩ := Option.isSome_iff_exists.mp (hreached.mpr hway)
    have hkeep {k : Nat} (hk : done < k) : (idoms.addEdge done k)[done]? = idoms[done]? :=
      Idoms.addEdge_of_ne (by omega)
    have hone := h.addEdge (fun k t hk => hk.1.le) (show done < k₀ by omega) (by omega)
    have htwo := hone.addEdge (fun k t hk => hk.elim (fun hk => hk.1.le) fun hk => hk.1.le)
      (show done < k₁ by omega) (by omega)
    refine ⟨_, by simp [hd, hkeep (show done < k₀ by omega)], htwo.congr fun k t => ?_⟩
    rw [edgesBefore_succ, hedge]
    simp only [hway, and_true, Nat.cast_inj]
    grind
  · have hnone : (idoms[done]?).join = none := by
      rwa [← Option.not_isSome_iff_eq_none, hreached]
    refine ⟨idoms, by simp [hnone], h.congr fun k t => ?_⟩
    rw [edgesBefore_succ]
    simp [hway]

/-- The pass over the blocks from `done` on. -/
theorem addBlocks_scanned (hforward : g.Forward) (hbs : g.blocks.toList.drop done = bs)
    (h : Scanned (g.EdgesBefore done) g.blocks.size idoms) :
    ∃ idoms', addBlocks g.blocks.size idoms done bs = .ok idoms' ∧
      Scanned (g.EdgesBefore g.blocks.size) g.blocks.size idoms' := by
  induction bs generalizing done idoms with
  | nil =>
    have hle : g.blocks.size ≤ done := by simpa using drop_eq_nil_iff.mp hbs
    refine ⟨idoms, rfl, h.congr fun k t => and_congr_left fun hk => ?_⟩
    have := hk.1.source_lt
    omega
  | cons b rest ih =>
    obtain ⟨hb, hrest⟩ := drop_blocks hbs
    have hskip (hnone : ∀ t, ¬ g.Edge done t) : Scanned (g.EdgesBefore (done + 1)) g.blocks.size idoms :=
      h.congr fun k t => by simp [edgesBefore_succ, hnone]
    rw [addBlocks.eq_def]
    simp only
    split
    · rename_i i hi
      split
      · rename_i c t₀ t₁ hop
        obtain ⟨idoms', hadd, hs⟩ := addTargets_scanned hforward hb hi hop h
        rw [hadd]
        exact ih hrest hs
      · rename_i hop
        exact ih hrest (hskip fun t hedge => by simp_all [edge_iff hb])
    · rename_i hi
      exact ih hrest (hskip fun t hedge => by simp_all [edge_iff hb])

theorem addBlocks_forward (hbs : g.blocks.toList.drop done = bs)
    (h : addBlocks g.blocks.size idoms done bs = .ok idoms') (hk : done ≤ k) (hedge : g.Edge k t) :
    (k : Int) < t ∧ t < g.blocks.size := by
  induction bs generalizing done idoms with
  | nil =>
    have hle : g.blocks.size ≤ done := by simpa using drop_eq_nil_iff.mp hbs
    have := hedge.source_lt
    omega
  | cons b rest ih =>
    obtain ⟨hb, hrest⟩ := drop_blocks hbs
    rw [addBlocks.eq_def] at h
    simp only at h
    rcases Nat.lt_or_eq_of_le hk with hlt | rfl
    · split at h
      · split at h
        · obtain ⟨idoms₁, -, h⟩ := Except.bind_eq_ok.mp h
          exact ih hrest h hlt
        · exact ih hrest h hlt
      · exact ih hrest h hlt
    · obtain ⟨i, c, f, f', hi, hop, ht⟩ := (edge_iff hb).mp hedge
      simp only [hi, hop] at h
      obtain ⟨idoms₁, hadd, -⟩ := Except.bind_eq_ok.mp h
      exact addTargets_eq_ok hadd t (by simpa using ht)

end Pass

theorem scanned_start (hne : 0 < g.blocks.size) : Scanned (g.EdgesBefore 0) g.blocks.size
    ((Array.replicate g.blocks.size none).setIfInBounds 0 (some 0)) := by
  refine ⟨by simp, ?_, ?_, ?_, ?_⟩
  · rintro k t ⟨hk, -⟩
    exact absurd hk (Nat.not_lt_zero k)
  · intro t ht
    rw [Array.getElem?_setIfInBounds, Array.size_replicate]
    by_cases hzero : t = 0
    · simp [hzero, hne]
    · simp [Ne.symm hzero, hzero, ht, EdgesBefore]
  · rintro k t ⟨hk, -⟩
    exact absurd hk (Nat.not_lt_zero k)
  · rintro k t c ⟨hk, -⟩
    exact absurd hk (Nat.not_lt_zero k)

theorem firstUnreached_eq_none : firstUnreached idoms = none ↔
    ∀ k < idoms.size, (idoms[k]?).join.isSome := by
  simp [firstUnreached, find?_eq_none, Option.isSome_iff_ne_none]

theorem dominators_eq_ok : g.dominators = .ok idoms ↔ addBlocks g.blocks.size
    ((Array.replicate g.blocks.size none).setIfInBounds 0 (some 0)) 0 g.blocks.toList = .ok idoms ∧
      firstUnreached idoms = none := by
  rw [dominators, Except.bind_eq_ok]
  constructor
  · rintro ⟨idoms', hadd, h⟩
    split at h
    · cases h
    · rename_i hnone
      cases h
      exact ⟨hadd, hnone⟩
  · rintro ⟨hadd, hnone⟩
    exact ⟨idoms, hadd, by rw [hnone]⟩

/-- Branches of a graph with dominators go forward and stay inside. -/
theorem dominators_forward (h : g.dominators = .ok idoms) : g.Forward := fun hedge =>
  addBlocks_forward drop_zero (dominators_eq_ok.mp h).1 (Nat.zero_le _) hedge

/-- The edges between the blocks of a graph, all of which are reached, with its dominators. -/
theorem dominators_scanned (hne : 0 < g.blocks.size) (h : g.dominators = .ok idoms) :
    Scanned (g.EdgesBefore g.blocks.size) g.blocks.size idoms ∧ ∀ k < g.blocks.size, ∃ way, g.Way k way := by
  obtain ⟨hadd, hnone⟩ := dominators_eq_ok.mp h
  have hforward : g.Forward := dominators_forward h
  obtain ⟨idoms', hadd', hs⟩ := addBlocks_scanned hforward drop_zero (scanned_start hne)
  cases hadd.symm.trans hadd'
  refine ⟨hs, fun k hk => ?_⟩
  rw [firstUnreached_eq_none, hs.size] at hnone
  exact (reached_iff hforward hs hk hk.le).mp (hnone k hk)

theorem exists_dominators (hne : 0 < g.blocks.size) (hforward : g.Forward)
    (hways : ∀ k < g.blocks.size, ∃ way, g.Way k way) : ∃ idoms, g.dominators = .ok idoms := by
  obtain ⟨idoms, hadd, hs⟩ := addBlocks_scanned hforward drop_zero (scanned_start hne)
  refine ⟨idoms, dominators_eq_ok.mpr ⟨hadd, firstUnreached_eq_none.mpr fun k hk => ?_⟩⟩
  rw [hs.size] at hk
  exact (reached_iff hforward hs hk hk.le).mpr (hways k hk)

/-- What dominates the target of an edge dominates its source too, unless it is the target itself. -/
theorem dominates_edge (h : g.dominators = .ok idoms) (hedge : g.Edge k t)
    (ha : idoms.dominates a t.toNat = true) : a = t.toNat ∨ idoms.dominates a k = true := by
  have hk := hedge.source_lt
  obtain ⟨hs, hways⟩ := dominators_scanned (Nat.zero_lt_of_lt hk) h
  have hlow := (dominators_forward h hedge).1
  obtain ⟨n, rfl⟩ := Int.eq_ofNat_of_zero_le (show 0 ≤ t by omega)
  cases Idoms.dominates_iff_above.mp ha with
  | refl => exact Or.inl rfl
  | step _ hup => exact Or.inr (Idoms.dominates_iff_above.mpr (hup.trans (hs.above ⟨hk, hedge, hways k hk⟩)))

/-- The forest is that of the dominators. -/
theorem dominates_iff (hne : 0 < g.blocks.size) (h : g.dominators = .ok idoms) {b : Nat}
    (hb : b < g.blocks.size) : idoms.dominates a b = true ↔ g.Dominates a b := by
  have hforward : g.Forward := dominators_forward h
  obtain ⟨hs, hways⟩ := dominators_scanned hne h
  constructor
  · intro hab way hway
    induction hway with
    | start => simpa using (Idoms.dominates_iff_above.mp hab).le
    | extend _ hedge ih =>
      rcases dominates_edge h hedge hab with rfl | hab
      · exact mem_cons_self
      · exact mem_cons_of_mem _ (ih hedge.source_lt hab)
  · rw [Idoms.dominates_iff_above]
    induction b using Nat.strong_induction_on with
    | _ b ih =>
      intro hab
      by_cases heq : a = b
      · exact heq ▸ .refl
      · -- what dominates a block strictly dominates the sources of all edges to it
        have hsource (j : Nat) (hj : g.EdgesBefore g.blocks.size j b) : idoms.Above a j :=
          ih j (hs.inside hj).1 hj.1 fun way hway =>
            (mem_cons.mp (hab _ (hway.extend hj.2.1))).resolve_left heq
        obtain ⟨way, hway⟩ := hways b hb
        cases hway with
        | start => exact absurd (mem_singleton.mp (hab _ .start)) heq
        | @extend k _ way hway hedge =>
          have hE : g.EdgesBefore g.blocks.size k b := ⟨hedge.source_lt, hedge, way, hway⟩
          exact .step ((hs.above hE).le.trans_lt (hs.inside hE).1) (hs.below hE hsource)

/-- The pass fails just if a branch at the end of a block goes backward or leaves the graph, or if some
block is not reached. Otherwise its table tells the dominators of the graph, and the entry of a block is
the closest of those that are not the block itself. -/
theorem dominators_exact (g : Graph) (hne : 0 < g.blocks.size) :
    ((∃ e, g.dominators = .error e) ↔
      (∃ k t, g.Edge k t ∧ (t ≤ k ∨ g.blocks.size ≤ t)) ∨ ∃ k < g.blocks.size, ∀ way, ¬ g.Way k way) ∧
    ∀ idoms, g.dominators = .ok idoms →
      (∀ a b, b < g.blocks.size → (idoms.dominates a b = true ↔ ∀ way, g.Way b way → a ∈ way)) ∧
      ∀ b, 0 < b → b < g.blocks.size → ∃ d, idoms[b]? = some (some d) ∧ d ≠ b ∧ g.Dominates d b ∧
        ∀ a, a ≠ b → g.Dominates a b → g.Dominates a d := by
  constructor
  · constructor
    · rintro ⟨e, he⟩
      by_contra hno
      push Not at hno
      obtain ⟨idoms, h⟩ := exists_dominators hne (fun {k t} hedge => by simpa using hno.1 k t hedge) hno.2
      rw [h] at he
      cases he
    · intro hbad
      cases h : g.dominators with
      | error e => exact ⟨e, rfl⟩
      | ok idoms =>
        rcases hbad with ⟨k, t, hedge, ht⟩ | ⟨k, hk, hnone⟩
        · have := dominators_forward h hedge
          omega
        · obtain ⟨way, hway⟩ := (dominators_scanned hne h).2 k hk
          exact absurd hway (hnone way)
  · intro idoms h
    obtain ⟨hs, hways⟩ := dominators_scanned hne h
    refine ⟨fun a b hb => dominates_iff hne h hb, fun b hpos hb => ?_⟩
    have hsome := (reached_iff (dominators_forward h) hs hb hb.le).mpr (hways b hb)
    obtain ⟨d, hd⟩ := Option.isSome_iff_exists.mp hsome
    have hget := Idoms.get_eq_of_getElem? (Option.join_eq_some_iff.mp hd)
    have hlt : idoms.get b < b := hs.descending b hpos
    rw [hget] at hlt
    have hdb : idoms.Above d b := .step (hget.symm ▸ hlt) (hget.symm ▸ .refl)
    refine ⟨d, Option.join_eq_some_iff.mp hd, hlt.ne, ?_, fun a hab hdom => ?_⟩
    · exact (dominates_iff hne h hb).mp (Idoms.dominates_iff_above.mpr hdb)
    · have habove := Idoms.dominates_iff_above.mp ((dominates_iff hne h hb).mpr hdom)
      cases habove with
      | refl => exact absurd rfl hab
      | step _ hup =>
        exact (dominates_iff hne h (hlt.trans hb)).mp (Idoms.dominates_iff_above.mpr (hget ▸ hup))

/-- Two branches part in block 0 and meet in block 3. -/
def diamond : Graph where
  blocks :=
    let branch (t₀ t₁ : Int) : Instr := ⟨.br (.const Ty.i1 1) t₀ t₁, .void, 0⟩
    #[⟨0, [branch 1 2]⟩, ⟨1, [branch 3 3]⟩, ⟨2, [branch 3 3]⟩, ⟨3, [⟨.exit, .void, 0⟩]⟩]
  varCount := 0

/-- Neither side dominates the block where they meet, but the block where they part does. -/
theorem dominators_exact_diamond : 0 < diamond.blocks.size ∧
    diamond.dominators = .ok #[some 0, some 0, some 0, some 0] ∧
    diamond.Dominates 0 3 ∧ ¬ diamond.Dominates 1 3 ∧ ¬ diamond.Dominates 2 3 := by
  have hidoms : diamond.dominators = .ok #[some 0, some 0, some 0, some 0] := by decide +kernel
  obtain ⟨hdom, -⟩ := (dominators_exact diamond (by decide)).2 _ hidoms
  refine ⟨by decide, hidoms, (hdom 0 3 (by decide)).mp ?_, fun h => ?_, fun h => ?_⟩
  · decide +kernel
  · exact absurd ((hdom 1 3 (by decide)).mpr h) (by decide +kernel)
  · exact absurd ((hdom 2 3 (by decide)).mpr h) (by decide +kernel)

end Graph

end Dynarec
