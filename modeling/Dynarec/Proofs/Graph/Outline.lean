import Dynarec.Graph.Listing
import Dynarec.Proofs.Graph.Typing
import Mathlib.Logic.Relation

/-!
# What an outline shows

An outline is a depth-first walk of an arbitrary graph. The walk is described without a bound on
its depth, and the bound is shown to be no bound: each level of nesting expands a block that was not
seen before. So every block that branches lead to is expanded, once, and each side of each of its
branches is shown.
-/
namespace Dynarec

open List

variable {k depth : Nat} {ns items' : List Outline}

/-- A side of a branch of block `k` leads to block `t`. -/
def Graph.Branches (g : Graph) (k t : Nat) : Prop :=
  ∃ b i c f f', g.blocks[k]? = some b ∧ i ∈ b.instrs ∧ i.op = .br c f f' ∧
    ((t : Int) = f ∨ (t : Int) = f') ∧ t < g.blocks.size

namespace Outline

/-- What an item of a block shows, but for what is below it. -/
inductive Stub where
  | instr (i : Instr)
  | side (edge : Edge) (label : Int)

def stub : Outline → Stub
  | instr i => .instr i
  | missing edge label => .side edge label
  | again edge label => .side edge label
  | block edge label _ => .side edge label

/-- The two sides of a branch, and any other instruction itself. -/
def stubsOf (i : Instr) : List Stub :=
  match i.op with
  | .br _ f t => [.side .ifTrue t, .side .ifFalse f]
  | _ => [.instr i]

mutual

/-- An outline and all that is below it, in the order of its lines. -/
def nodes : Outline → List Outline
  | block edge label items => block edge label items :: nodesAll items
  | item => [item]

def nodesAll : List Outline → List Outline
  | [] => []
  | item :: rest => nodes item ++ nodesAll rest

end

def expanded? : Outline → Option Nat
  | block _ label _ => some label
  | _ => none

/-- A node is true to the graph: a block that is expanded shows its instructions in order, and one
that is missing is out of range. -/
def Shows (g : Graph) : Outline → Prop
  | block _ k items => ∃ b, g.blocks[k]? = some b ∧ items.map stub = b.instrs.flatMap stubsOf
  | missing _ label => ¬ (0 ≤ label ∧ label < g.blocks.size)
  | _ => True

/-- Blocks are referred to only behind the places where they are expanded, or if `seen` has them. -/
def Backed (seen : List Nat) (ns : List Outline) : Prop :=
  ∀ front edge k back, ns = front ++ again edge k :: back →
    k ∈ seen ∨ k ∈ front.filterMap expanded?

/-- The walk: blocks `seen` before it, and after it. -/
inductive Drawn (g : Graph) : List Nat → List Stub → List Outline → List Nat → Prop
  | nil {seen} : Drawn g seen [] [] seen
  | instr {seen stubs items seen' i} (rest : Drawn g seen stubs items seen') :
      Drawn g seen (.instr i :: stubs) (instr i :: items) seen'
  | missing {seen stubs items seen' edge label} (hnone : entryAt? g.blocks label = none)
      (rest : Drawn g seen stubs items seen') :
      Drawn g seen (.side edge label :: stubs) (missing edge label :: items) seen'
  | again {seen stubs items seen' edge label b} (hb : entryAt? g.blocks label = some b)
      (hseen : label.toNat ∈ seen) (rest : Drawn g seen stubs items seen') :
      Drawn g seen (.side edge label :: stubs) (again edge label.toNat :: items) seen'
  | block {seen stubs items seen' edge label b below mid} (hb : entryAt? g.blocks label = some b)
      (hseen : label.toNat ∉ seen)
      (inner : Drawn g (label.toNat :: seen) (b.instrs.flatMap stubsOf) below mid)
      (rest : Drawn g mid stubs items seen') :
      Drawn g seen (.side edge label :: stubs) (block edge label.toNat below :: items) seen'

variable {g : Graph} {seen seen' mid : List Nat} {stubs : List Stub} {items : List Outline}

theorem side_mem_stubsOf {i : Instr} {t : Int} :
    (∃ edge, .side edge t ∈ stubsOf i) ↔ ∃ c f f', i.op = .br c f f' ∧ (t = f ∨ t = f') := by
  constructor
  · rintro ⟨edge, hside⟩
    rw [stubsOf] at hside
    split at hside
    · rename_i c f f' hop
      refine ⟨c, f, f', hop, ?_⟩
      simp only [mem_cons, Stub.side.injEq, not_mem_nil, or_false] at hside
      exact hside.symm.imp And.right And.right
    · simp at hside
  · rintro ⟨c, f, f', hop, rfl | rfl⟩
    · exact ⟨.ifFalse, by simp [stubsOf, hop]⟩
    · exact ⟨.ifTrue, by simp [stubsOf, hop]⟩

theorem branches_iff {t : Nat} {b : Block} (hb : g.blocks[k]? = some b) :
    g.Branches k t ↔
      ∃ edge, .side edge (t : Int) ∈ b.instrs.flatMap stubsOf ∧ t < g.blocks.size := by
  simp only [Graph.Branches, hb, Option.some.injEq, mem_flatMap]
  constructor
  · rintro ⟨_, i, c, f, f', rfl, hi, hop, ht, hlt⟩
    obtain ⟨edge, hside⟩ := side_mem_stubsOf.mpr ⟨c, f, f', hop, ht⟩
    exact ⟨edge, ⟨i, hi, hside⟩, hlt⟩
  · rintro ⟨edge, ⟨i, hi, hside⟩, hlt⟩
    obtain ⟨c, f, f', hop, ht⟩ := side_mem_stubsOf.mp ⟨edge, hside⟩
    exact ⟨b, i, c, f, f', rfl, hi, hop, ht, hlt⟩

theorem Backed.cons {n : Outline} (hn : ∀ edge k, n = again edge k → k ∈ seen)
    (h : Backed (n.expanded?.toList ++ seen) ns) : Backed seen (n :: ns) := by
  intro front edge k back hsplit
  cases front with
  | nil =>
    obtain ⟨heq, -⟩ := cons.inj hsplit
    exact Or.inl (hn edge k heq)
  | cons m front =>
    obtain ⟨rfl, htail⟩ := cons.inj hsplit
    have hk := h front edge k back htail
    cases hn : n.expanded? with
    | none => simpa [hn] using hk
    | some l =>
      simp only [hn, Option.toList_some, singleton_append, mem_cons,
        filterMap_cons_some hn] at hk ⊢
      tauto

theorem Backed.append {ns' : List Outline} (h : Backed seen ns)
    (h' : Backed ((ns.filterMap expanded?).reverse ++ seen) ns') : Backed seen (ns ++ ns') := by
  intro front edge k back hsplit
  obtain ⟨front', rfl, hrest⟩ | ⟨back', hns, hrest⟩ := append_eq_append_iff.mp hsplit
  · have hk := h' front' edge k back hrest
    simp only [mem_append, mem_reverse, filterMap_append] at hk ⊢
    tauto
  · cases back' with
    | nil =>
      have hk := h' [] edge k back hrest.symm
      simpa [hns, or_comm] using hk
    | cons n back' =>
      obtain ⟨rfl, -⟩ := cons.inj hrest
      exact h front edge k back' hns

namespace Drawn

theorem append {stubs' : List Stub} (h : Drawn g seen stubs items mid)
    (h' : Drawn g mid stubs' items' seen') :
    Drawn g seen (stubs ++ stubs') (items ++ items') seen' := by
  induction h with
  | nil => exact h'
  | instr _ ih => exact (ih h').instr
  | missing hnone _ ih => exact (ih h').missing hnone
  | again hlt hseen _ ih => exact (ih h').again hlt hseen
  | block hb hseen inner _ _ ih => exact .block hb hseen inner (ih h')

/-- No two walks differ: at each side the rules exclude each other. -/
theorem unique (h : Drawn g seen stubs items seen') (h' : Drawn g seen stubs items' mid) :
    items = items' ∧ seen' = mid := by
  induction h generalizing items' mid with
  | nil =>
    cases h'
    exact ⟨rfl, rfl⟩
  | instr _ ih =>
    cases h' with
    | instr rest => exact (ih rest).imp_left (congrArg _)
  | missing hnone _ ih =>
    cases h' with
    | missing _ rest => exact (ih rest).imp_left (congrArg _)
    | again hb | block hb => cases hnone.symm.trans hb
  | again hb hseen _ ih =>
    cases h' with
    | missing hnone => cases hb.symm.trans hnone
    | again _ _ rest => exact (ih rest).imp_left (congrArg _)
    | block _ hnot => exact absurd hseen hnot
  | block hb hseen _ _ ihinner ih =>
    cases h' with
    | missing hnone => cases hb.symm.trans hnone
    | again _ hmem => exact absurd hmem hseen
    | block hb' _ inner rest =>
      cases hb.symm.trans hb'
      obtain ⟨rfl, rfl⟩ := ihinner inner
      exact (ih rest).imp_left (congrArg _)

theorem stub_eq (h : Drawn g seen stubs items seen') : items.map stub = stubs := by
  induction h with
  | nil => rfl
  | instr _ ih | missing _ _ ih => rw [map_cons, ih, stub]
  | again hb _ _ ih | block hb _ _ _ _ ih =>
    rw [map_cons, ih, stub, ← (entryAt?_eq_some hb).1]

/-- Blocks are seen where they are expanded. -/
theorem seen_eq (h : Drawn g seen stubs items seen') :
    seen' = ((nodesAll items).filterMap expanded?).reverse ++ seen := by
  induction h with
  | nil => rfl
  | instr _ ih | missing _ _ ih | again _ _ _ ih =>
    rw [ih, nodesAll, nodes, singleton_append, filterMap_cons_none rfl]
    all_goals simp
  | block _ _ _ _ ihinner ih =>
    simp [nodesAll, nodes, expanded?, ih, ihinner]

theorem mem_of_seen (h : Drawn g seen stubs items seen') (hk : k ∈ seen) : k ∈ seen' := by
  rw [h.seen_eq]
  exact mem_append_right _ hk

theorem nodup (h : Drawn g seen stubs items seen') (hseen : seen.Nodup) : seen'.Nodup := by
  induction h with
  | nil => exact hseen
  | instr _ ih | missing _ _ ih | again _ _ _ ih => exact ih hseen
  | block _ hnot _ _ ihinner ih => exact ih (ihinner (nodup_cons.mpr ⟨hnot, hseen⟩))

theorem lt_size (h : Drawn g seen stubs items seen') (hseen : ∀ k ∈ seen, k < g.blocks.size) :
    ∀ k ∈ seen', k < g.blocks.size := by
  induction h with
  | nil => exact hseen
  | instr _ ih | missing _ _ ih | again _ _ _ ih => exact ih hseen
  | block hb _ _ _ ihinner ih =>
    have hlt := (Array.getElem?_eq_some_iff.mp (entryAt?_eq_some hb).2).1
    exact ih (ihinner (forall_mem_cons.mpr ⟨hlt, hseen⟩))

/-- What is in range is seen, and so is what it leads to. -/
theorem closed (h : Drawn g seen stubs items seen') :
    (∀ edge (t : Nat), .side edge t ∈ stubs → t < g.blocks.size → t ∈ seen') ∧
      ∀ k ∈ seen', k ∉ seen → ∀ t, g.Branches k t → t ∈ seen' := by
  induction h with
  | nil => exact ⟨fun _ _ hside => (not_mem_nil hside).elim, fun k hk hnot => absurd hk hnot⟩
  | instr _ ih =>
    exact ⟨fun edge t hside => ih.1 edge t ((mem_cons.mp hside).resolve_left nofun), ih.2⟩
  | missing hnone _ ih =>
    refine ⟨fun edge t hside hlt => ?_, ih.2⟩
    rcases mem_cons.mp hside with heq | hside
    · cases heq
      rw [entryAt?_natCast, Array.getElem?_eq_getElem hlt] at hnone
      cases hnone
    · exact ih.1 edge t hside hlt
  | again _ hseen rest ih =>
    refine ⟨fun edge t hside hlt => ?_, ih.2⟩
    rcases mem_cons.mp hside with heq | hside
    · cases heq
      exact rest.mem_of_seen hseen
    · exact ih.1 edge t hside hlt
  | @block seen _ _ _ _ label _ _ mid hb _ inner rest ihinner ih =>
    refine ⟨fun edge t hside hlt => ?_, fun k hk hnot t hbranch => ?_⟩
    · rcases mem_cons.mp hside with heq | hside
      · cases heq
        exact rest.mem_of_seen (inner.mem_of_seen mem_cons_self)
      · exact ih.1 edge t hside hlt
    · by_cases hmid : k ∈ mid
      · refine rest.mem_of_seen ?_
        by_cases hlabel : k = label.toNat
        · subst hlabel
          obtain ⟨edge, hside, hlt⟩ := (branches_iff (entryAt?_eq_some hb).2).mp hbranch
          exact ihinner.1 edge t hside hlt
        · exact ihinner.2 k hmid (by simp [hlabel, hnot]) t hbranch
      · exact ih.2 k hk hmid t hbranch

/-- Only what sides lead to is expanded. -/
theorem reaches {R : Nat → Prop} (hstep : ∀ {k t}, R k → g.Branches k t → R t)
    (h : Drawn g seen stubs items seen')
    (hstart : ∀ edge (t : Nat), .side edge t ∈ stubs → t < g.blocks.size → R t) :
    ∀ k ∈ seen', k ∈ seen ∨ R k := by
  induction h with
  | nil => exact fun k hk => Or.inl hk
  | instr _ ih | missing _ _ ih | again _ _ _ ih =>
    exact ih fun edge t hside => hstart edge t (mem_cons_of_mem _ hside)
  | @block _ _ _ _ edge label _ _ _ hb _ _ _ ihinner ih =>
    obtain ⟨hnat, hentry⟩ := entryAt?_eq_some hb
    have hlt := (Array.getElem?_eq_some_iff.mp hentry).1
    have hlabel : R label.toNat := hstart edge _ (by rw [← hnat]; exact mem_cons_self) hlt
    have hinner := ihinner fun edge t hside ht =>
      hstep hlabel ((branches_iff hentry).mpr ⟨edge, hside, ht⟩)
    intro k hk
    rcases ih (fun edge t hside => hstart edge t (mem_cons_of_mem _ hside)) k hk with hmid | hk
    · rcases hinner k hmid with hk | hk
      · rcases mem_cons.mp hk with rfl | hk
        · exact Or.inr hlabel
        · exact Or.inl hk
      · exact Or.inr hk
    · exact Or.inr hk

theorem shows (h : Drawn g seen stubs items seen') : ∀ n ∈ nodesAll items, Shows g n := by
  induction h with
  | nil => exact fun _ hn => nomatch hn
  | instr _ ih | again _ _ _ ih => exact forall_mem_cons.mpr ⟨trivial, ih⟩
  | missing hnone _ ih =>
    refine forall_mem_cons.mpr ⟨fun hrange => ?_, ih⟩
    rw [entryAt?, if_neg (by omega), Array.getElem?_eq_none_iff] at hnone
    omega
  | block hb _ inner _ ihinner ih =>
    refine forall_mem_cons.mpr ⟨⟨_, (entryAt?_eq_some hb).2, inner.stub_eq⟩, ?_⟩
    exact forall_mem_append.mpr ⟨ihinner, ih⟩

theorem backed (h : Drawn g seen stubs items seen') : Backed seen (nodesAll items) := by
  induction h with
  | nil => exact fun front _ _ _ hsplit => by simp [nodesAll] at hsplit
  | instr _ ih | missing _ _ ih => exact Backed.cons nofun ih
  | again _ hseen _ ih =>
    refine Backed.cons (fun _ _ heq => ?_) ih
    cases heq
    exact hseen
  | block _ _ inner _ ihinner ih =>
    rw [inner.seen_eq] at ih
    exact Backed.cons nofun (ihinner.append ih)

end Drawn

/-- Fewer blocks are unseen than levels are left. -/
structure Fits (g : Graph) (depth : Nat) (seen : List Nat) : Prop where
  nodup : seen.Nodup
  lt_size : ∀ k ∈ seen, k < g.blocks.size
  size_lt : g.blocks.size < seen.length + depth

theorem Fits.pos (h : Fits g depth seen) : 0 < depth := by
  have hsub : seen ⊆ range g.blocks.size := fun k hk => mem_range.mpr (h.lt_size k hk)
  have hle := (subperm_of_subset h.nodup hsub).length_le
  have hlt := h.size_lt
  rw [length_range] at hle
  omega

theorem Fits.after (h : Fits g depth seen) (hdrawn : Drawn g seen stubs items seen') :
    Fits g depth seen' where
  nodup := hdrawn.nodup h.nodup
  lt_size := hdrawn.lt_size h.lt_size
  size_lt := by
    have hlt := h.size_lt
    rw [hdrawn.seen_eq, length_append]
    omega

/-- `reach` walks, at depth `depth`. -/
def Reaching (g : Graph) (depth : Nat) : Prop :=
  ∀ seen edge label, Fits g depth seen → Drawn g seen [.side edge label]
    [(reach g depth seen edge label).1] (reach g depth seen edge label).2

theorem Reaching.expand (hreach : Reaching g depth) (is : List Instr) (hfits : Fits g depth seen) :
    Drawn g seen (is.flatMap stubsOf) (expand g depth seen is).1 (expand g depth seen is).2 := by
  induction is generalizing seen with
  | nil =>
    rw [Outline.expand]
    exact .nil
  | cons i is ih =>
    rw [flatMap_cons, stubsOf, Outline.expand]
    split
    · rename_i c f t hop
      have htrue := hreach seen .ifTrue t hfits
      have hfits := hfits.after htrue
      have hfalse := hreach _ .ifFalse f hfits
      simpa [hop] using (htrue.append hfalse).append (ih (hfits.after hfalse))
    · simpa using (ih hfits).instr

theorem reaching (depth : Nat) : Reaching g depth := by
  induction depth with
  | zero => exact fun seen edge label hfits => absurd hfits.pos (Nat.lt_irrefl 0)
  | succ depth ih =>
    intro seen edge label hfits
    rw [reach]
    cases hb : entryAt? g.blocks label with
    | none => exact .missing hb .nil
    | some b =>
      by_cases hseen : label.toNat ∈ seen
      · simpa [hseen] using Drawn.again hb hseen .nil
      · have hlt := (Array.getElem?_eq_some_iff.mp (entryAt?_eq_some hb).2).1
        have hinner : Fits g depth (label.toNat :: seen) := {
          nodup := nodup_cons.mpr ⟨hseen, hfits.nodup⟩
          lt_size := forall_mem_cons.mpr ⟨hlt, hfits.lt_size⟩
          size_lt := by
            have hsize := hfits.size_lt
            rw [length_cons]
            omega }
        simpa [hseen] using Drawn.block hb hseen (ih.expand b.instrs hinner) .nil

mutual

/-- Each node has its line. -/
theorem lines_forall₂ (reg : Int → String) (indent : String) (last : Bool) (o : Outline) :
    Forall₂ (fun n line => ∃ indent last, line = headLine reg indent last n) (nodes o)
      (lines reg indent last o) := by
  cases o with
  | block edge label items =>
    rw [nodes, lines]
    exact .cons ⟨indent, last, rfl⟩ (linesAll_forall₂ reg (margin indent last) items)
  | instr i | missing edge label | again edge label => exact .cons ⟨indent, last, rfl⟩ .nil

theorem linesAll_forall₂ (reg : Int → String) (indent : String) (items : List Outline) :
    Forall₂ (fun n line => ∃ indent last, line = headLine reg indent last n) (nodesAll items)
      (linesAll reg indent items) := by
  cases items with
  | nil => exact .nil
  | cons o items =>
    exact rel_append (lines_forall₂ reg indent items.isEmpty o)
      (linesAll_forall₂ reg indent items)

end

/-- The blocks that branches lead to from block 0 are expanded, once each, and nothing else is. -/
structure Complete (g : Graph) (o : Outline) : Prop where
  root : o.stub = .side .root 0
  once : ((nodes o).filterMap expanded?).Nodup
  reached : ∀ k, k ∈ (nodes o).filterMap expanded? ↔ Relation.ReflTransGen g.Branches 0 k
  shows : ∀ n ∈ nodes o, Shows g n
  backed : Backed [] (nodes o)
  lines : ∀ reg, ∃ title ls, g.outlineText reg = String.join ((title :: ls).map (· ++ "\n")) ∧
    Forall₂ (fun n line => ∃ indent last, line = headLine reg indent last n) (nodes o) ls

theorem complete_of_drawn {o : Outline} (hne : 0 < g.blocks.size) (ho : ofGraph g = some o)
    (h : Drawn g [] [.side .root 0] [o] seen) : Complete g o := by
  have hnodes : nodesAll [o] = nodes o := by simp [nodesAll]
  have hseen : seen = ((nodes o).filterMap expanded?).reverse := by
    rw [h.seen_eq, hnodes, append_nil]
  obtain ⟨hsides, hclosed⟩ := h.closed
  refine ⟨(cons.inj h.stub_eq).1, ?_, fun k => ?_, hnodes ▸ h.shows, hnodes ▸ h.backed,
    fun reg => ?_⟩
  · have hnodup := h.nodup nodup_nil
    rwa [hseen, nodup_reverse] at hnodup
  · rw [← mem_reverse, ← hseen]
    constructor
    · intro hk
      refine (h.reaches (R := Relation.ReflTransGen g.Branches 0) .tail ?_ k hk).resolve_left
        not_mem_nil
      intro edge t hside _
      obtain ⟨-, rfl⟩ : edge = .root ∧ t = 0 := by simpa using hside
      exact .refl
    · intro hreach
      induction hreach with
      | refl => exact hsides .root 0 mem_cons_self hne
      | tail _ hstep ih => exact hclosed _ ih not_mem_nil _ hstep
  · have hlines := linesAll_forall₂ reg "" [o]
    rw [hnodes] at hlines
    simp only [Graph.outlineText, ho]
    exact ⟨_, _, rfl, hlines⟩

/-- An outline is finite and complete. More levels than blocks never show more. -/
theorem ofGraph_complete (g : Graph) :
    (∀ depth, g.blocks.size < depth →
      reach g depth [] .root 0 = reach g (g.blocks.size + 1) [] .root 0) ∧
    (g.blocks.size = 0 → ofGraph g = none) ∧
    (0 < g.blocks.size → ∃ o, ofGraph g = some o ∧ Complete g o) := by
  have hdrawn (depth : Nat) (hdepth : g.blocks.size < depth) :=
    reaching (g := g) depth [] .root 0 ⟨List.nodup_nil, nofun, by simpa using hdepth⟩
  have hfull := hdrawn _ (Nat.lt_succ_self _)
  refine ⟨fun depth hdepth => ?_, fun hempty => ?_, fun hne => ?_⟩
  · obtain ⟨hitems, hseen⟩ := (hdrawn depth hdepth).unique hfull
    exact Prod.ext (List.cons.inj hitems).1 hseen
  · simp [ofGraph, Array.eq_empty_of_size_eq_zero hempty]
  · have ho : ofGraph g = some (reach g (g.blocks.size + 1) [] .root 0).1 := by
      rw [ofGraph, if_neg]
      simpa [Array.isEmpty_iff_size_eq_zero] using hne.ne'
    exact ⟨_, ho, complete_of_drawn hne ho hfull⟩

/-- Block 0 leads to itself, to block 2 twice and out of the graph; block 2 leads back, and out of
the graph. No branch leads to block 1. -/
def looping : Graph :=
  let branch (ifFalse ifTrue : Int) : Instr := { op := .br (.var .i1 0) ifFalse ifTrue }
  { blocks := #[⟨0, [branch 0 2, branch (-1) 7, branch 2 0]⟩, ⟨1, [branch 0 2]⟩, ⟨2, [branch 0 3]⟩]
    varCount := 1 }

theorem ofGraph_complete_looping :
    reach looping 9 [] .root 0 = reach looping 4 [] .root 0 ∧
      ∃ o, ofGraph looping = some o ∧ Complete looping o :=
  ⟨(ofGraph_complete looping).1 9 (by decide), (ofGraph_complete looping).2.2 (by decide)⟩

end Outline

end Dynarec
