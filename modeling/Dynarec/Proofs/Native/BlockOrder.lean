import Dynarec.Proofs.Graph.Safety
import Dynarec.Proofs.Native.Layout

/-!
# Which blocks are placed

The blocks of a checked graph have an order that its branches alone decide: behind a block comes the one
that it falls through to, and the other side of its branch waits until nothing is left to fall through to.
The layout follows this order, so the blocks that control can come to are placed once each, and no others.
-/
namespace Dynarec

open Dynarec.Graph

variable {i : Instr} {k t : Nat} {g : Graph} {p : Place} {rest : List Instr}

namespace Graph

/-- The last operation of block `k`. -/
def EndsIn (g : Graph) (k : Nat) (op : Op) : Prop :=
  ∃ b i, g.blocks[k]? = some b ∧ b.tail? = some i ∧ i.op = op

/-- The block that follows block `k` when its branch is not taken, or is decided already. -/
inductive FallsTo (g : Graph) (k : Nat) : Nat → Prop
  | selected {t x ifFalse ifTrue} (hend : g.EndsIn k (.br (.const t x) ifFalse ifTrue)) : FallsTo g
      k (if x &&& 1 = 0 then ifFalse.toNat else ifTrue.toNat)
  | ifFalse {t id ifFalse ifTrue} (hend : g.EndsIn k (.br (.var t id) ifFalse ifTrue)) : FallsTo g k
      ifFalse.toNat

/-- Control can go from block `k` to another. A branch on a constant has one side only. -/
inductive Flows (g : Graph) (k : Nat) : Nat → Prop
  | falls {t : Nat} (hfalls : g.FallsTo k t) : Flows g k t
  | ifTrue {t id ifFalse ifTrue} (hend : g.EndsIn k (.br (.var t id) ifFalse ifTrue)) : Flows g k
      ifTrue.toNat

/-- Control can come to block `k`. -/
def Reachable (g : Graph) (k : Nat) : Prop :=
  Relation.ReflTransGen g.Flows 0 k

theorem Typed.endsIn (T : g.Typed) (hi : g.instrAt? p = some i) (hterm : i.isTerminator = true) :
    g.EndsIn p.label i.op := by
  obtain ⟨defs, hdefs⟩ := T.exists_stands hi
  obtain ⟨b, hb, htail, -⟩ := hdefs.tail hi hterm
  exact ⟨b, i, hb, htail, rfl⟩

/-- The block that the code of block `k` falls through to, and the other side of its branch. A branch on a
constant has one side only. -/
def sides (g : Graph) (k : Nat) : Option Nat × Option Nat :=
  match ((g.blocks[k]?).bind Block.tail?).map Instr.op with
  | some (.br (.const _ x) ifFalse ifTrue) =>
      (some (if x &&& 1 = 0 then ifFalse.toNat else ifTrue.toNat), none)
  | some (.br (.var _ _) ifFalse ifTrue) => (some ifFalse.toNat, some ifTrue.toNat)
  | _ => (none, none)

theorem endsIn_iff {op : Op} :
    g.EndsIn k op ↔ ((g.blocks[k]?).bind Block.tail?).map Instr.op = some op := by
  simp only [EndsIn, Option.map_eq_some_iff, Option.bind_eq_some_iff]
  constructor
  · rintro ⟨b, i, hb, hi, hop⟩
    exact ⟨i, ⟨b, hb, hi⟩, hop⟩
  · rintro ⟨i, ⟨b, hb, hi⟩, hop⟩
    exact ⟨b, i, hb, hi, hop⟩

theorem flows_iff_sides : g.Flows k t ↔ t ∈ (g.sides k).1 ∨ t ∈ (g.sides k).2 := by
  constructor
  · intro hflows
    cases hflows with
    | falls hfalls =>
      cases hfalls with
      | selected hend | ifFalse hend => simp [sides, endsIn_iff.mp hend]
    | ifTrue hend => simp [sides, endsIn_iff.mp hend]
  · intro ht
    unfold sides at ht
    split at ht
    · rename_i hend
      obtain rfl : _ = t := by simpa using ht
      exact .falls (.selected (endsIn_iff.mpr hend))
    · rename_i hend
      rcases ht with ht | ht
      all_goals obtain rfl := Option.some.inj ht
      · exact .falls (.ifFalse (endsIn_iff.mpr hend))
      · exact .ifTrue (endsIn_iff.mpr hend)
    · simp at ht

/-- The blocks in the order in which they get a place, if those of `placed` have one and those of
`waiting` come next. -/
def placement (g : Graph) (placed : List Nat) : (waiting : List Nat) → List Nat
  | [] => []
  | k :: waiting =>
      if _fresh : k < g.blocks.size ∧ k ∉ placed then
        k :: placement g (placed ++ [k]) ((g.sides k).1.toList ++ waiting ++ (g.sides k).2.toList)
      else placement g placed waiting
termination_by waiting => ((Native.unplaced g.blocks.size placed).length, waiting.length)
decreasing_by
  · exact Prod.Lex.left _ _ (Native.length_unplaced_lt _fresh.1 _fresh.2)
  · exact Prod.Lex.right _ (by simp)

theorem Typed.lt_of_flows (T : g.Typed) (hflows : g.Flows k t) : t < g.blocks.size := by
  have hforward {c : Value} {ifFalse ifTrue : Int} (hend : g.EndsIn k (.br c ifFalse ifTrue)) {t : Int}
      (ht : t = ifFalse ∨ t = ifTrue) : t.toNat < g.blocks.size := by
    obtain ⟨b, i, hb, hi, hop⟩ := hend
    have := dominators_forward T.dominators ⟨b, i, c, ifFalse, ifTrue, hb, hi, hop, ht⟩
    omega
  cases hflows with
  | falls hfalls =>
    cases hfalls with
    | selected hend =>
      split_ifs
      · exact hforward hend (Or.inl rfl)
      · exact hforward hend (Or.inr rfl)
    | ifFalse hend => exact hforward hend (Or.inl rfl)
  | ifTrue hend => exact hforward hend (Or.inr rfl)

section Placement

variable {placed waiting : List Nat}

theorem placement_eq_order (g : Graph) (placed waiting : List Nat) :
    g.placement placed waiting = Native.order g.blocks.size g.sides placed waiting := by
  induction placed, waiting using placement.induct g with
  | case1 placed => rw [placement, Native.order]
  | case2 placed k waiting hfresh ih => rw [placement, dif_pos hfresh, ih, Native.order_cons hfresh]
  | case3 placed k waiting hstale ih => rw [placement, dif_neg hstale, ih, Native.order_stale hstale]

theorem lt_of_mem_placement (hk : k ∈ g.placement placed waiting) : k < g.blocks.size := by
  rw [placement_eq_order] at hk
  exact (Native.nodup_order.2 k hk).1

/-- The blocks that get a place are those that control can come to. -/
theorem mem_placement_iff (T : g.Typed) (hne : 0 < g.blocks.size) :
    k ∈ g.placement [] [0] ↔ g.Reachable k := by
  rw [placement_eq_order]
  constructor
  · intro hk
    obtain ⟨t, ht, hpath⟩ := Native.reached_of_mem_order hk
    obtain rfl := List.mem_singleton.mp ht
    exact Relation.ReflTransGen.mono (fun _ _ hside => flows_iff_sides.mpr hside) _ _ hpath
  · have hinside (k t : Nat) (hside : t ∈ (g.sides k).1 ∨ t ∈ (g.sides k).2) : t < g.blocks.size :=
      T.lt_of_flows (flows_iff_sides.mpr hside)
    obtain ⟨hall, hclosed⟩ := Native.order_closed hinside [] [0] (by simpa using hne)
    intro hk
    induction hk with
    | refl => simpa using hall 0 (by simp)
    | tail _ hflows ih => simpa using hclosed _ ih _ (flows_iff_sides.mp hflows)

end Placement

/-- The instructions of a graph in the order of their code. -/
def emitted (g : Graph) : List Instr :=
  (g.placement [] [0]).flatMap fun k => (g.blocks[k]?.map Block.instrs).getD []

theorem mem_instrs_of_mem_emitted (hi : i ∈ g.emitted) : i ∈ g.instrs := by
  obtain ⟨k, -, hik⟩ := List.mem_flatMap.mp hi
  cases hb : g.blocks[k]? with
  | none => simp [hb] at hik
  | some b =>
    rw [hb] at hik
    exact mem_instrs hb hik

/-- The instructions of a block from place `p` on. -/
def From (g : Graph) (p : Place) (is : List Instr) : Prop :=
  ∃ b, g.blocks[p.label]? = some b ∧ b.instrs.drop p.offset = is

theorem From.cons (h : g.From p (i :: rest)) : g.instrAt? p = some i ∧ g.From p.succ rest := by
  obtain ⟨b, hb, hdrop⟩ := h
  constructor
  · rw [instrAt?_eq_some]
    refine ⟨b, hb, ?_⟩
    rw [← List.head?_drop, hdrop, List.head?_cons]
  · refine ⟨b, hb, ?_⟩
    rw [Place.succ, ← List.drop_drop, hdrop, List.drop_one, List.tail_cons]

theorem from_block (hk : k < g.blocks.size) :
    g.From ⟨k, 0⟩ ((g.blocks[k]?.map Block.instrs).getD []) := by
  refine ⟨g.blocks[k], Array.getElem?_eq_getElem hk, ?_⟩
  simp [Array.getElem?_eq_getElem hk]

theorem From.instrAt? {is : List Instr} (h : g.From p is) : g.instrAt? p = is.head? := by
  obtain ⟨b, hb, hdrop⟩ := h
  rw [Graph.instrAt?, hb, Option.bind_some, ← List.head?_drop, hdrop]

/-- A terminator is the last instruction of its block. -/
theorem From.eq_nil_iff (T : g.Typed) (h : g.From p (i :: rest)) :
    rest = [] ↔ i.isTerminator = true := by
  obtain ⟨hi, hrest⟩ := h.cons
  obtain ⟨defs, hdefs⟩ := T.exists_stands hi
  obtain ⟨-, -, -, hlast⟩ := hdefs.next hi
  rw [hlast, hrest.instrAt?, List.head?_eq_none_iff]

end Graph

namespace Native

open Machine

section Order

variable {w : Workspace} {h : Homes}

/-- Code that does not stop in a block goes on to the sides of the block. -/
theorem sides_blockCode (T : g.Typed) {is : List Dynarec.Instr} {items : List Item} {fin : BlockEnd}
    (his : g.From p is) (hcode : Layout.blockCode w g h p.label k is = (items, fin))
    (hfin : stopOf fin = none) : fin.sides = g.sides p.label := by
  induction is generalizing p k items with
  | nil =>
    cases hcode
    cases hfin
  | cons i rest ih =>
    obtain ⟨hi, hrest⟩ := his.cons
    cases begins_blockCode hcode with
    | exit hop =>
      have hend := T.endsIn hi (by simp [Instr.isTerminator, hop, Op.isTerminator])
      simp [sides, endsIn_iff.mp hend, hop, BlockEnd.sides]
    | stopped => cases hfin
    | instr _ _ hcode => exact ih (p := p.succ) hrest hcode
    | branch hop hbranch =>
      have hend := T.endsIn hi (by simp [Instr.isTerminator, hop, Op.isTerminator])
      rw [hop] at hend
      cases hbranch with
      | stopped => cases hfin
      | const hc => simp [sides, endsIn_iff.mp hend, hc, BlockEnd.sides]
      | var _ _ _ hvar =>
        obtain ⟨t, id, rfl⟩ := hvar
        simp [sides, endsIn_iff.mp hend, BlockEnd.sides]

/-- Up to the first block that stops, blocks are placed in the order that the branches decide. -/
theorem linked_placement (T : g.Typed) (placed waiting : List Nat) :
    linked w g h (blockOrder w g h placed waiting) = linked w g h (g.placement placed waiting) := by
  rw [placement_eq_order]
  induction placed, waiting using order.induct g.blocks.size
      (fun k => (wholeBlock w g h k).2.sides) with
  | case1 placed => rw [blockOrder, order, order]
  | case2 placed k waiting hfresh ih =>
    rw [blockOrder, order_cons hfresh, order_cons hfresh]
    cases hfin : stopOf (wholeBlock w g h k).2 with
    | some f => simp only [linked, hfin]
    | none =>
      have hsides : (wholeBlock w g h k).2.sides = g.sides k :=
        sides_blockCode T (from_block hfresh.1) rfl hfin
      rw [hsides] at ih ⊢
      rw [linked_cons rfl hfin, linked_cons rfl hfin, ← head?_linked w g h (order _ g.sides _ _), ← ih,
        head?_linked]
  | case3 placed k waiting hstale ih => rw [blockOrder, order_stale hstale, ih, order_stale hstale]

/-- The layout of a checked graph follows the order that its branches decide. -/
theorem layout_placement (T : g.Typed) (w : Workspace) (h : Homes) (hne : 0 < g.blocks.size) :
    linked w g h (g.placement [] [0]) = ((layout w g h).1.flatten, (layout w g h).2) := by
  rw [← linked_placement T, layout_linked w h hne]

/-- The order of a layout: every block that control can come to is placed once. -/
theorem layout_order (T : g.Typed) {rs : List (List Placed)} (hne : 0 < g.blocks.size)
    (hlayout : layout w g h = (rs, none)) :
    linked w g h (rs.flatten.map Placed.label) = (rs.flatten, none) ∧
      (rs.flatten.map Placed.label).Nodup ∧
      (∀ k, k ∈ rs.flatten.map Placed.label ↔ g.Reachable k) ∧
      ∀ k ∈ rs.flatten.map Placed.label, k < g.blocks.size := by
  have hlinked := layout_placement T w h hne
  rw [hlayout] at hlinked
  rw [labels_linked hlinked]
  refine ⟨hlinked, ?_, fun k => mem_placement_iff T hne, fun k => lt_of_mem_placement⟩
  rw [placement_eq_order]
  exact nodup_order.1

end Order

end Native

end Dynarec
