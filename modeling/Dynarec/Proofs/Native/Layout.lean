import Dynarec.Proofs.Native.Assemble
import Dynarec.Proofs.Native.Code

/-!
# Where blocks stand

Every block that control can come to has a place, and behind its code stands the block that it falls
through to, or a jump to it: this is `Chained`. In the written function every piece of the code stands
at a position, and the jumps arrive at the positions of their blocks.
-/
namespace Dynarec.Native

open Machine CodeBuffer List

variable {k pos next label : Nat} {front items : List Item} {known : Nat → Prop} {ps : List Placed}
  {is : List Dynarec.Instr} {c : Option Cond} {fin : BlockEnd} {i : Dynarec.Instr}

/-- The block that control falls through to, and the other one that has to be placed. -/
def BlockEnd.sides : BlockEnd → Option Nat × Option Nat
  | .falls next later => (some next, later)
  | _ => (none, none)

/-- The jump behind the code of a block, if another block than the one it falls through to comes next. -/
def BlockEnd.closing (next : Option Nat) : BlockEnd → List Item
  | .falls t _ => if next = some t then [] else [.jump none (.block t)]
  | _ => []

/-- Why code generation stopped in a block, if it did. -/
def stopOf : BlockEnd → Option AssembleFailure
  | .stopped f => some f
  | _ => none

section Chained

variable (w : Workspace) (g : Graph) (h : Homes)

/-- The code of a block and how it ends. -/
def wholeBlock (label : Nat) : List Item × BlockEnd :=
  Layout.blockCode w g h label (Layout.firstIndex g label)
    ((g.blocks[label]?.map Block.instrs).getD [])

/-- How control goes on behind a placed block, if `known` are the blocks that jumps may go to. -/
inductive Continues (known : Nat → Prop) : Placed → List Placed → Prop
  | closed {label items back} (hcode : wholeBlock w g h label = (items, .closed)) : Continues known
      ⟨label, items⟩ back
  | falls {label next later items items' back}
      (hcode : wholeBlock w g h label = (items, .falls next later)) (hlater : ∀ t ∈ later, known t)
      : Continues known ⟨label, items⟩ (⟨next, items'⟩ :: back)
  | jumps {label next later items back}
      (hcode : wholeBlock w g h label = (items, .falls next later)) (hlater : ∀ t ∈ later, known t)
      (hnext : known next) : Continues known ⟨label, items ++ [.jump none (.block next)]⟩ back

/-- Each of the blocks goes on. -/
def Chained (known : Nat → Prop) : List Placed → Prop
  | [] => True
  | p :: back => Continues w g h known p back ∧ Chained known back

variable {w g h} {p : Placed}

theorem Chained.continues {front back : List Placed} (hc : Chained w g h known (front ++ p :: back)) :
    Continues w g h known p back := by
  induction front with
  | nil => exact hc.1
  | cons q front ih => exact ih hc.2

/-- Control only goes on to later blocks of the graph. -/
def Forward (g : Graph) (label t : Nat) : Prop :=
  label < t ∧ t < g.blocks.size

theorem badTarget_eq_none {targets : List Int} (hnone : Layout.badTarget g label targets = none)
    {t : Int} (ht : t ∈ targets) : Forward g label t.toNat := by
  have hno := find?_eq_none.mp hnone t ht
  simp only [Bool.or_eq_true, decide_eq_true_eq] at hno
  unfold Forward
  omega

variable (g h) in
/-- The end of block `label` at a branch: a condition that is a constant needs no code. -/
inductive Branches (label : Nat) (c : Value) (ifFalse ifTrue : Int) : List Item → BlockEnd → Prop
  | stopped {f} : Branches label c ifFalse ifTrue [] (.stopped f)
  | const {t x} (hc : c = .const t x) (hfalse : Forward g label ifFalse.toNat)
      (htrue : Forward g label ifTrue.toNat) : Branches label c ifFalse ifTrue []
      (.falls (if x &&& 1 = 0 then ifFalse.toNat else ifTrue.toNat) none)
  | var {code} (hload : Select.load h .rax c = .ok code)
      (hfalse : Forward g label ifFalse.toNat) (htrue : Forward g label ifTrue.toNat)
      (hvar : ∃ t id, c = .var t id) :
      Branches label c ifFalse ifTrue
        ((code ++ [Machine.Instr.test .dword (.reg .rax) .rax]).map .plain ++
          [.jump (some .notEqual) (.block ifTrue.toNat)])
        (.falls ifFalse.toNat (some ifTrue.toNat))

theorem branches_branchCode {c : Value} {ifFalse ifTrue : Int}
    (hcode : Layout.branchCode g h label i c ifFalse ifTrue = (items, fin)) :
    Branches g h label c ifFalse ifTrue items fin := by
  unfold Layout.branchCode at hcode
  cases hbad : Layout.badTarget g label [ifFalse, ifTrue] with
  | some t =>
    simp only [hbad] at hcode
    cases hcode
    exact .stopped
  | none =>
    have hfalse := badTarget_eq_none hbad (t := ifFalse) (by simp)
    have htrue := badTarget_eq_none hbad (t := ifTrue) (by simp)
    simp only [hbad] at hcode
    cases c with
    | const t x =>
      cases hcode
      exact .const rfl hfalse htrue
    | var t id =>
      cases hload : Select.load h .rax (.var t id) with
      | error e =>
        simp only [hload] at hcode
        cases hcode
        exact .stopped
      | ok code =>
        simp only [hload] at hcode
        split_ifs at hcode
        · cases hcode
          exact .stopped
        · cases hcode
          exact .var hload hfalse htrue ⟨t, id, rfl⟩

variable (w g h) in
/-- The code of a block from instruction `i` on, which `rest` follows. -/
inductive Begins (label k : Nat) (i : Dynarec.Instr) (rest : List Dynarec.Instr) :
    List Item → BlockEnd → Prop
  | exit (hop : i.op = .exit) : Begins label k i rest [.jump none .epilogue] .closed
  | branch {c ifFalse ifTrue items fin} (hop : i.op = .br c ifFalse ifTrue)
      (hcode : Branches g h label c ifFalse ifTrue items fin) : Begins label k i rest items fin
  | instr {code items fin} (hterm : i.isTerminator = false)
      (hcode : Layout.instrCode w h k i = .ok code)
      (hrest : Layout.blockCode w g h label (k + 1) rest = (items, fin)) : Begins label k i rest
      (code.map .plain ++ items) fin
  | stopped {f} : Begins label k i rest [] (.stopped f)

theorem begins_blockCode {rest : List Dynarec.Instr}
    (hcode : Layout.blockCode w g h label k (i :: rest) = (items, fin)) :
    Begins w g h label k i rest items fin := by
  unfold Layout.blockCode at hcode
  split at hcode
  · rename_i hop
    cases hcode
    exact .exit hop
  · rename_i c ifFalse ifTrue hop
    exact .branch hop (branches_branchCode hcode)
  · rename_i hexit hbr
    have hterm : i.isTerminator = false := by
      unfold Instr.isTerminator Op.isTerminator
      split <;> simp_all
    cases hinstr : Layout.instrCode w h k i with
    | error f =>
      simp only [hinstr] at hcode
      cases hcode
      exact .stopped
    | ok code =>
      simp only [hinstr] at hcode
      cases hcode
      exact .instr hterm hinstr rfl

theorem blockCode_falls {later : Option Nat}
    (hcode : Layout.blockCode w g h label k is = (items, .falls next later)) :
    Forward g label next ∧ ∀ t ∈ later, Forward g label t := by
  induction is generalizing k items with
  | nil => simp [Layout.blockCode] at hcode
  | cons i rest ih =>
    cases begins_blockCode hcode with
    | instr _ _ hrest => exact ih hrest
    | branch _ hbranch =>
      cases hbranch with
      | const _ hfalse htrue =>
        refine ⟨?_, by simp⟩
        split_ifs
        · exact hfalse
        · exact htrue
      | var _ hfalse htrue => exact ⟨hfalse, by simpa using htrue⟩

/-- A jump of a block goes to the epilogue, or to the block that has to be placed later. -/
theorem jump_mem_blockCode (hcode : Layout.blockCode w g h label k is = (items, fin)) {t : Target}
    (hjump : .jump c t ∈ items) :
    t = .epilogue ∨ ∃ next later, fin = .falls next (some later) ∧ t = .block later := by
  induction is generalizing k items with
  | nil =>
    cases hcode
    cases hjump
  | cons i rest ih =>
    cases begins_blockCode hcode with
    | exit _ =>
      cases mem_singleton.mp hjump
      exact Or.inl rfl
    | stopped => cases hjump
    | branch _ hbranch =>
      cases hbranch with
      | stopped => cases hjump
      | const => cases hjump
      | var =>
        rcases mem_append.mp hjump with hjump | hjump
        · simp at hjump
        · cases mem_singleton.mp hjump
          exact Or.inr ⟨_, _, rfl, rfl⟩
    | instr _ _ hrest =>
      rcases mem_append.mp hjump with hjump | hjump
      · simp at hjump
      · exact ih hrest hjump

theorem Continues.known_of_jump (hc : Continues w g h known p ps) {t : Target}
    (hjump : .jump c t ∈ p.items) : t = .epilogue ∨ ∃ label, t = .block label ∧ known label := by
  cases hc with
  | closed hcode =>
    rcases jump_mem_blockCode hcode hjump with rfl | ⟨next, later, hfin, -⟩
    · exact Or.inl rfl
    · cases hfin
  | falls hcode hlater =>
    rcases jump_mem_blockCode hcode hjump with rfl | ⟨next, later, hfin, rfl⟩
    · exact Or.inl rfl
    · cases hfin
      exact Or.inr ⟨later, rfl, hlater later rfl⟩
  | jumps hcode hlater hnext =>
    rcases mem_append.mp hjump with hjump | hjump
    · rcases jump_mem_blockCode hcode hjump with rfl | ⟨next, later, hfin, rfl⟩
      · exact Or.inl rfl
      · cases hfin
        exact Or.inr ⟨later, rfl, hlater later rfl⟩
    · cases mem_singleton.mp hjump
      exact Or.inr ⟨_, rfl, hnext⟩

theorem Chained.known_of_jump (hc : Chained w g h known ps) {t : Target}
    (hjump : .jump c t ∈ ps.flatMap Placed.items) :
    t = .epilogue ∨ ∃ label, t = .block label ∧ known label := by
  obtain ⟨p, hp, hitem⟩ := mem_flatMap.mp hjump
  obtain ⟨front, back, rfl⟩ := append_of_mem hp
  exact hc.continues.known_of_jump hitem

theorem instrCode_ok {code : Code} (hcode : Layout.instrCode w h k i = .ok code) :
    Select.unsupported w i = none ∧ Select.code h w k i = .ok code := by
  unfold Layout.instrCode at hcode
  cases hno : Select.unsupported w i with
  | some cause => simp [hno] at hcode
  | none =>
    cases hselect : Select.code h w k i with
    | error e => simp [hno, hselect] at hcode
    | ok code' =>
      cases hhome : Select.homeless h i.op with
      | some id => simp [hno, hselect, hhome] at hcode
      | none =>
        simp only [hno, hselect, hhome, Except.ok.injEq] at hcode
        exact ⟨rfl, by rw [hcode]⟩

end Chained

section Order

variable {count : Nat} {sides : Nat → Option Nat × Option Nat} {placed waiting : List Nat} {t : Nat}

/-- The blocks that have no place. -/
def unplaced (count : Nat) (placed : List Nat) : List Nat :=
  (range count).filter (· ∉ placed)

theorem length_unplaced_lt (hk : k < count) (hfresh : k ∉ placed) :
    (unplaced count (placed ++ [k])).length < (unplaced count placed).length := by
  have hsplit : unplaced count (placed ++ [k]) = (unplaced count placed).filter (· ≠ k) := by
    simp only [unplaced, filter_filter]
    congr 1
    funext t
    by_cases htk : t = k <;> simp [htk]
  rw [hsplit]
  refine length_filter_lt_length_iff_exists.mpr ⟨k, ?_, by simp⟩
  simp [unplaced, hk, hfresh]

/-- The blocks in the order in which they get a place, if those of `placed` have one and those of
`waiting` come next. The first side of a block comes behind it, the other one waits. -/
def order (count : Nat) (sides : Nat → Option Nat × Option Nat) (placed : List Nat) :
    (waiting : List Nat) → List Nat
  | [] => []
  | k :: waiting =>
      if _fresh : k < count ∧ k ∉ placed then
        k :: order count sides (placed ++ [k]) ((sides k).1.toList ++ waiting ++ (sides k).2.toList)
      else order count sides placed waiting
termination_by waiting => ((unplaced count placed).length, waiting.length)
decreasing_by
  · exact Prod.Lex.left _ _ (length_unplaced_lt _fresh.1 _fresh.2)
  · exact Prod.Lex.right _ (by simp)

theorem order_stale (hstale : ¬ (k < count ∧ k ∉ placed)) :
    order count sides placed (k :: waiting) = order count sides placed waiting := by
  rw [order, dif_neg hstale]

theorem order_skip (hk : k ∈ placed) :
    order count sides placed (k :: waiting) = order count sides placed waiting :=
  order_stale fun hfresh => hfresh.2 hk

theorem order_cons (hfresh : k < count ∧ k ∉ placed) :
    order count sides placed (k :: waiting) = k :: order count sides (placed ++ [k])
      ((sides k).1.toList ++ waiting ++ (sides k).2.toList) := by
  rw [order, dif_pos hfresh]

theorem order_drop (hk : k ∈ placed) (front back : List Nat) :
    order count sides placed (front ++ k :: back) = order count sides placed (front ++ back) := by
  generalize hwaiting : front ++ back = waiting
  induction placed, waiting using order.induct count sides generalizing front back with
  | case1 placed =>
    obtain ⟨rfl, rfl⟩ := append_eq_nil_iff.mp hwaiting
    exact order_skip hk
  | case2 placed t waiting hfresh ih =>
    cases front with
    | nil => rw [nil_append, order_skip hk, ← hwaiting, nil_append]
    | cons u front =>
      obtain ⟨rfl, rfl⟩ := cons.inj hwaiting
      rw [cons_append, order_cons hfresh, order_cons hfresh]
      have hdrop := ih (mem_append_left _ hk) ((sides u).1.toList ++ front)
        (back ++ (sides u).2.toList) (by simp)
      rw [← hdrop]
      simp
  | case3 placed t waiting hstale ih =>
    cases front with
    | nil => rw [nil_append, order_skip hk, ← hwaiting, nil_append]
    | cons u front =>
      obtain ⟨rfl, rfl⟩ := cons.inj hwaiting
      rw [cons_append, order_stale hstale, order_stale hstale]
      exact ih hk front back rfl

/-- Blocks get a place once, and only blocks that have none. -/
theorem nodup_order : (order count sides placed waiting).Nodup ∧
    ∀ k ∈ order count sides placed waiting, k < count ∧ k ∉ placed := by
  induction placed, waiting using order.induct count sides with
  | case1 placed => simp [order]
  | case2 placed u waiting hfresh ih =>
    rw [order_cons hfresh, nodup_cons, forall_mem_cons]
    refine ⟨⟨fun hu => (ih.2 u hu).2 (by simp), ih.1⟩, hfresh, fun k hk => ⟨(ih.2 k hk).1, ?_⟩⟩
    exact fun hin => (ih.2 k hk).2 (mem_append_left _ hin)
  | case3 placed u waiting hstale ih => rwa [order_stale hstale]

/-- Every block that gets a place is reached from one that waits. -/
theorem reached_of_mem_order (hk : k ∈ order count sides placed waiting) : ∃ t ∈ waiting,
    Relation.ReflTransGen (fun u t => t ∈ (sides u).1 ∨ t ∈ (sides u).2) t k := by
  induction placed, waiting using order.induct count sides with
  | case1 placed => simp [order] at hk
  | case2 placed u waiting hfresh ih =>
    rw [order_cons hfresh] at hk
    rcases mem_cons.mp hk with rfl | hk
    · exact ⟨k, mem_cons_self, .refl⟩
    · obtain ⟨t, ht, hpath⟩ := ih hk
      have ht' : t ∈ waiting ∨ t ∈ (sides u).1 ∨ t ∈ (sides u).2 := by
        simp only [mem_append, Option.mem_toList] at ht
        tauto
      rcases ht' with ht' | hside
      · exact ⟨t, mem_cons_of_mem _ ht', hpath⟩
      · exact ⟨u, mem_cons_self, .head hside hpath⟩
  | case3 placed u waiting hstale ih =>
    rw [order_stale hstale] at hk
    obtain ⟨t, ht, hpath⟩ := ih hk
    exact ⟨t, mem_cons_of_mem _ ht, hpath⟩

/-- What waits gets a place, and so do the sides of the blocks that get one. -/
theorem order_closed (hinside : ∀ k t, t ∈ (sides k).1 ∨ t ∈ (sides k).2 → t < count)
    (placed waiting : List Nat) (hwaiting : ∀ k ∈ waiting, k < count) :
    (∀ k ∈ waiting, k ∈ placed ∨ k ∈ order count sides placed waiting) ∧
      ∀ k ∈ order count sides placed waiting, ∀ t, t ∈ (sides k).1 ∨ t ∈ (sides k).2 →
        t ∈ placed ∨ t ∈ order count sides placed waiting := by
  induction placed, waiting using order.induct count sides with
  | case1 placed => simp [order]
  | case2 placed u waiting hfresh ih =>
    rw [order_cons hfresh]
    rw [forall_mem_cons] at hwaiting
    obtain ⟨hall, hclosed⟩ := ih fun k hk => by
      simp only [mem_append, Option.mem_toList] at hk
      rcases hk with (hk | hk) | hk
      · exact hinside u k (Or.inl hk)
      · exact hwaiting.2 k hk
      · exact hinside u k (Or.inr hk)
    simp only [mem_append, mem_singleton, Option.mem_toList] at hall hclosed
    simp only [mem_cons, forall_eq_or_imp]
    refine ⟨⟨Or.inr (Or.inl trivial), fun k hk => ?_⟩, fun t ht => ?_, fun k hk t ht => ?_⟩
    · have := hall k (Or.inl (Or.inr hk))
      tauto
    · have := hall t (by tauto)
      tauto
    · have := hclosed k hk t ht
      tauto
  | case3 placed u waiting hstale ih =>
    rw [order_stale hstale]
    rw [forall_mem_cons] at hwaiting
    obtain ⟨hall, hclosed⟩ := ih hwaiting.2
    have hu : u ∈ placed := not_not.mp fun hu => hstale ⟨hwaiting.1, hu⟩
    exact ⟨forall_mem_cons.mpr ⟨Or.inl hu, hall⟩, hclosed⟩

end Order

section Linked

variable (w : Workspace) (g : Graph) (h : Homes)

/-- The blocks of `ks` one behind the other, up to the first in which code generation stops. -/
def linked : List Nat → List Placed × Option AssembleFailure
  | [] => ([], none)
  | k :: ks =>
      match stopOf (wholeBlock w g h k).2 with
      | some f => ([⟨k, (wholeBlock w g h k).1⟩], some f)
      | none =>
          (⟨k, (wholeBlock w g h k).1 ++ (wholeBlock w g h k).2.closing ks.head?⟩ :: (linked ks).1,
            (linked ks).2)

/-- The order in which a layout places blocks. -/
abbrev blockOrder (placed waiting : List Nat) : List Nat :=
  order g.blocks.size (fun k => (wholeBlock w g h k).2.sides) placed waiting

variable {w g h} {s s' : Layout.State} {stop : Option AssembleFailure} {ks : List Nat}

theorem linked_cons (hcode : wholeBlock w g h k = (items, fin)) (hfin : stopOf fin = none) :
    linked w g h (k :: ks) =
      (⟨k, items ++ fin.closing ks.head?⟩ :: (linked w g h ks).1, (linked w g h ks).2) := by
  simp only [linked, hcode, hfin]

theorem linked_stop (w : Workspace) (g : Graph) (h : Homes) (ks : List Nat) :
    (linked w g h ks).2 = ks.findSome? fun k => stopOf (wholeBlock w g h k).2 := by
  induction ks with
  | nil => rfl
  | cons k ks ih =>
    rw [linked, findSome?_cons, ← ih]
    split <;> simp_all

theorem head?_linked (w : Workspace) (g : Graph) (h : Homes) (ks : List Nat) :
    (linked w g h ks).1.head?.map Placed.label = ks.head? := by
  cases ks with
  | nil => rfl
  | cons k ks =>
    rw [linked]
    split <;> rfl

/-- Blocks that are linked without a stop, one by one. -/
theorem linked_eq_cons (hlinked : linked w g h (k :: ks) = (ps, none)) :
    ∃ items fin back, wholeBlock w g h k = (items, fin) ∧ stopOf fin = none ∧
      ps = ⟨k, items ++ fin.closing ks.head?⟩ :: back ∧ linked w g h ks = (back, none) := by
  rw [linked] at hlinked
  split at hlinked
  · cases hlinked
  · rename_i hfin
    obtain ⟨rfl, hstop⟩ := Prod.mk.inj hlinked
    exact ⟨_, _, _, rfl, hfin, rfl, Prod.ext rfl hstop⟩

theorem linked_proceeds (hlinked : linked w g h ks = (ps, none)) (hk : k ∈ ks) :
    stopOf (wholeBlock w g h k).2 = none := by
  have hstop := linked_stop w g h ks
  rw [hlinked] at hstop
  exact findSome?_eq_none_iff.mp hstop.symm k hk

theorem labels_linked (hlinked : linked w g h ks = (ps, none)) : ps.map Placed.label = ks := by
  induction ks generalizing ps with
  | nil =>
    cases hlinked
    rfl
  | cons k ks ih =>
    obtain ⟨items, fin, back, -, -, rfl, hback⟩ := linked_eq_cons hlinked
    rw [map_cons, ih hback]

theorem chained_linked (hlinked : linked w g h ks = (ps, none))
    (hknown : ∀ k ∈ ks, ∀ t, t ∈ (wholeBlock w g h k).2.sides.1 ∨ t ∈ (wholeBlock w g h k).2.sides.2 →
      known t) : Chained w g h known ps := by
  induction ks generalizing ps with
  | nil =>
    cases hlinked
    trivial
  | cons k ks ih =>
    obtain ⟨items, fin, back, hcode, hfin, rfl, hback⟩ := linked_eq_cons hlinked
    rw [forall_mem_cons, hcode] at hknown
    refine ⟨?_, ih hback hknown.2⟩
    have hlabels := labels_linked hback
    cases fin with
    | stopped f => cases hfin
    | closed =>
      simp only [BlockEnd.closing, append_nil]
      exact .closed hcode
    | falls next later =>
      have hlater : ∀ t ∈ later, known t := fun t ht => hknown.1 t (Or.inr ht)
      simp only [BlockEnd.closing]
      split_ifs with hnext
      · rw [← hlabels, head?_map] at hnext
        obtain ⟨p, hp, rfl⟩ := Option.map_eq_some_iff.mp hnext
        obtain ⟨rest, rfl⟩ := head?_eq_some_iff.mp hp
        rw [append_nil]
        exact .falls hcode hlater
      · exact .jumps hcode hlater (hknown.1 next (Or.inl rfl))

/-- How many blocks have no place or wait. -/
def ahead (g : Graph) (s : Layout.State) : Nat :=
  (unplaced g.blocks.size s.placed.toList).length + s.pending.length

/-- The other side of a branch waits, unless it has a place. -/
def queue (later : Option Nat) (s : Layout.State) : Layout.State :=
  match later with
  | some t => if s.placed.contains t then s else { s with pending := s.pending ++ [t] }
  | none => s

theorem queue_placed (later : Option Nat) (s : Layout.State) : (queue later s).placed = s.placed := by
  unfold queue
  repeat' split
  all_goals rfl

theorem queue_pending (later : Option Nat) (s : Layout.State) :
    (queue later s).pending = s.pending ∨ ∃ t ∈ later, (queue later s).pending = s.pending ++ [t] := by
  unfold queue
  repeat' split
  all_goals simp

/-- It is all the same for the order whether a block waits that has a place. -/
theorem blockOrder_queue (later : Option Nat) (s : Layout.State) (front : List Nat) :
    blockOrder w g h s.placed.toList (front ++ s.pending ++ later.toList) =
      blockOrder w g h (queue later s).placed.toList (front ++ (queue later s).pending) := by
  rw [queue_placed]
  unfold queue
  split
  · split_ifs with ht
    · rename_i t
      have hdrop : blockOrder w g h s.placed.toList (front ++ s.pending ++ [t]) = _ :=
        order_drop (Array.mem_toList_iff.mpr (by simpa using ht)) (front ++ s.pending) []
      simpa using hdrop
    · simp
  · simp

/-- A block that has no place takes the next one. -/
theorem blockOrder_fresh (hfresh : label < g.blocks.size ∧ label ∉ s.placed)
    (hcode : wholeBlock w g h label = (items, fin)) {s₁ : Layout.State}
    (hs₁ : queue fin.sides.2 { s with placed := s.placed.push label } = s₁) :
    blockOrder w g h s.placed.toList (label :: s.pending) =
      label :: blockOrder w g h s₁.placed.toList (fin.sides.1.toList ++ s₁.pending) := by
  have hcons : blockOrder w g h s.placed.toList (label :: s.pending) = _ :=
    order_cons (show label < g.blocks.size ∧ label ∉ s.placed.toList by simpa using hfresh)
  rw [hcons, ← hs₁, ← blockOrder_queue, Array.toList_push, hcode]

/-- What a run leaves to be placed. -/
structure Spends (g : Graph) (s s' : Layout.State) : Prop where
  ahead : ahead g s' ≤ ahead g s
  pending : (∀ t ∈ s.pending, t < g.blocks.size) → ∀ t ∈ s'.pending, t < g.blocks.size

theorem spends_queue (later : Option Nat) (hfresh : label < g.blocks.size ∧ label ∉ s.placed)
    (hlater : ∀ t ∈ later, t < g.blocks.size) :
    Spends g s (queue later { s with placed := s.placed.push label }) := by
  have hlt := length_unplaced_lt hfresh.1 (show label ∉ s.placed.toList by simpa using hfresh.2)
  have hpending := queue_pending later { s with placed := s.placed.push label }
  constructor
  · rw [Native.ahead, Native.ahead, queue_placed, Array.toList_push]
    rcases hpending with hp | ⟨t, -, hp⟩
    all_goals
      simp only [hp, length_append, length_singleton]
      omega
  · intro hs t ht
    rcases hpending with hp | ⟨u, hu, hp⟩
    · exact hs t (hp ▸ ht)
    · rw [hp] at ht
      rcases mem_append.mp ht with ht | ht
      · exact hs t ht
      · exact mem_singleton.mp ht ▸ hlater u hu

/-- A run takes its blocks from the front of the order. -/
theorem run_linked (hrun : Layout.run w g h s label = (ps, s', stop))
    (hfresh : label < g.blocks.size ∧ label ∉ s.placed) :
    Spends g s s' ∧ linked w g h (blockOrder w g h s.placed.toList (label :: s.pending)) =
      let rest := if stop.isSome then ([], stop) else
        linked w g h (blockOrder w g h s'.placed.toList s'.pending)
      (ps ++ rest.1, rest.2) := by
  fun_induction Layout.run w g h s label generalizing ps s' stop with
  | case1 s label hin s₁ items =>
    rename_i hcode
    cases hrun
    refine ⟨spends_queue none hfresh (by simp), ?_⟩
    rw [blockOrder_fresh hfresh hcode (rfl : _ = s₁), linked_cons hcode rfl]
    simp [BlockEnd.closing, BlockEnd.sides]
  | case2 s label _ s₁ items f =>
    rename_i hcode
    cases hrun
    refine ⟨spends_queue none hfresh (by simp), ?_⟩
    rw [blockOrder_fresh hfresh hcode (rfl : _ = s₁)]
    simp [linked, wholeBlock, hcode, stopOf]
  | case3 s label _ s₁ items next later s₂ =>
    rename_i hplaced hcode
    cases hrun
    refine ⟨spends_queue _ hfresh fun t ht => ((blockCode_falls hcode).2 t ht).2, ?_⟩
    have hnext : next ∈ s₂.placed.toList := by simpa using hplaced
    have hskip : blockOrder w g h s₂.placed.toList ((some next).toList ++ s₂.pending) =
        blockOrder w g h s₂.placed.toList s₂.pending := order_skip hnext
    -- the block has a place, so it is not the one that comes next
    have hhead : (blockOrder w g h s₂.placed.toList s₂.pending).head? ≠ some next := fun hhead =>
      (nodup_order.2 next (mem_of_head? hhead)).2 hnext
    rw [blockOrder_fresh hfresh hcode (rfl : _ = s₂), linked_cons hcode rfl, BlockEnd.sides, hskip,
      BlockEnd.closing, if_neg hhead]
    rfl
  | case4 s label _ s₁ items next later s₂ hplaced _ rest s₃ stop hrest =>
    rename_i hcode ih
    cases hrun
    have hforward := blockCode_falls hcode
    have hnext : next < g.blocks.size ∧ next ∉ s₂.placed := ⟨hforward.1.2, by simpa using hplaced⟩
    obtain ⟨hspends, hlinked⟩ := ih hrest hnext
    have hspends₁ : Spends g s s₂ := spends_queue _ hfresh fun t ht => (hforward.2 t ht).2
    refine ⟨⟨hspends.ahead.trans hspends₁.ahead, fun hs => hspends.pending (hspends₁.pending hs)⟩, ?_⟩
    have hhead : (blockOrder w g h s₂.placed.toList (next :: s₂.pending)).head? = some next := by
      rw [blockOrder_fresh hnext rfl rfl, head?_cons]
    rw [blockOrder_fresh hfresh hcode (rfl : _ = s₂), linked_cons hcode rfl, BlockEnd.sides,
      Option.toList_some, singleton_append, hlinked, BlockEnd.closing, if_pos hhead, append_nil]
    rfl
  | case5 s label _ s₁ items next later s₂ _ =>
    rename_i hlt hcode
    exact absurd (blockCode_falls hcode).1.1 hlt
  | case6 s label hout => exact absurd hfresh.1 hout

/-- The runs are the blocks in their order, if there are steps for all that is ahead. -/
theorem runs_linked {steps : Nat} (hpending : ∀ t ∈ s.pending, t < g.blocks.size)
    (hsteps : ahead g s ≤ steps) :
    linked w g h (blockOrder w g h s.placed.toList s.pending) =
      ((Layout.runs w g h steps s).1.flatten, (Layout.runs w g h steps s).2) := by
  induction steps generalizing s with
  | zero =>
    have hempty : s.pending = [] := length_eq_zero_iff.mp (by unfold ahead at hsteps; omega)
    rw [hempty, blockOrder, order]
    rfl
  | succ steps ih =>
    unfold Layout.runs
    cases hwait : s.pending with
    | nil =>
      rw [blockOrder, order]
      rfl
    | cons label pending =>
      rw [hwait, forall_mem_cons] at hpending
      have hsteps' : ahead g { s with pending } ≤ steps := by
        rw [ahead, hwait, length_cons] at hsteps
        exact Nat.le_of_succ_le_succ hsteps
      simp only
      split_ifs with hplaced
      · rw [blockOrder, order_skip (by simpa using hplaced)]
        exact ih (s := { s with pending }) hpending.2 hsteps'
      · rcases hrun : Layout.run w g h { s with pending } label with ⟨ps, s', stop⟩
        obtain ⟨hspends, hlinked⟩ := run_linked hrun ⟨hpending.1, by simpa using hplaced⟩
        rw [hlinked]
        cases stop with
        | some f => simp
        | none => simp [ih (hspends.pending hpending.2) (hspends.ahead.trans hsteps')]

theorem layout_linked (w : Workspace) (h : Homes) (hne : 0 < g.blocks.size) :
    linked w g h (blockOrder w g h [] [0]) = ((layout w g h).1.flatten, (layout w g h).2) :=
  runs_linked (s := { pending := [0] }) (by simpa using hne) (by simp [ahead, unplaced])

/-- The layout of a graph: block 0 comes first, and the jumps go to blocks that have a place. -/
theorem layout_chained {rs : List (List Placed)} (hne : 0 < g.blocks.size)
    (hlayout : layout w g h = (rs, none)) :
    (∃ items back, rs.flatten = ⟨0, items⟩ :: back) ∧
      Chained w g h (· ∈ rs.flatten.map Placed.label) rs.flatten := by
  have hlinked := layout_linked w h hne
  rw [hlayout] at hlinked
  have hinside (k t : Nat) (ht : t ∈ (wholeBlock w g h k).2.sides.1 ∨ t ∈ (wholeBlock w g h k).2.sides.2) :
      t < g.blocks.size := by
    rcases hcode : wholeBlock w g h k with ⟨items, fin⟩
    rw [hcode] at ht
    cases fin with
    | falls next later =>
      obtain ⟨hnext, hlater⟩ := blockCode_falls hcode
      rcases ht with ht | ht
      · cases ht
        exact hnext.2
      · exact (hlater t ht).2
    | _ => simp [BlockEnd.sides] at ht
  obtain ⟨-, hclosed⟩ := order_closed hinside [] [0] (by simpa using hne)
  constructor
  · rw [blockOrder, order_cons (by simpa using hne)] at hlinked
    obtain ⟨items, fin, back, -, -, hfirst, -⟩ := linked_eq_cons hlinked
    exact ⟨_, back, hfirst⟩
  · refine chained_linked hlinked fun k hk t ht => ?_
    rw [labels_linked hlinked]
    simpa using hclosed k hk t ht

end Linked

section Items

variable {target : Target → Nat}

theorem itemsLength_map_plain (code : Code) : itemsLength (code.map .plain) = codeLength code := by
  induction code with
  | nil => rfl
  | cons i code ih =>
    rw [map_cons, itemsLength_cons, codeLength_cons, ih]
    rfl

theorem resolve_map_plain (target : Target → Nat) (pos : Nat) (code : Code) :
    resolve target pos (code.map .plain) = code := by
  induction code generalizing pos with
  | nil => rfl
  | cons i code ih => simp only [map_cons, resolve, ih, Item.instr]

theorem codeLength_resolve (target : Target → Nat) (pos : Nat) (items : List Item) :
    codeLength (resolve target pos items) = itemsLength items := by
  rw [← length_flatMap_encode, length_flatMap_resolve]

theorem places_end (pos : Nat) (ps : List Placed) :
    (places pos ps).2 = pos + itemsLength (ps.flatMap Placed.items) := by
  induction ps generalizing pos with
  | nil => rfl
  | cons p ps ih =>
    simp only [places, ih, flatMap_cons, itemsLength_append, Nat.add_assoc]

theorem places_lookup (hin : label ∈ ps.map Placed.label) :
    ∃ front items back, ps = front ++ ⟨label, items⟩ :: back ∧ ∀ pos,
      (places pos ps).1.lookup label = some (pos + itemsLength (front.flatMap Placed.items)) := by
  induction ps with
  | nil => cases hin
  | cons p ps ih =>
    obtain ⟨label', items'⟩ := p
    by_cases hp : label = label'
    · subst hp
      exact ⟨[], items', ps, rfl, fun pos => by simp [places]⟩
    · have hin' : label ∈ ps.map Placed.label := by simpa [hp] using hin
      obtain ⟨front, items, back, rfl, hlookup⟩ := ih hin'
      refine ⟨⟨label', items'⟩ :: front, items, back, rfl, fun pos => ?_⟩
      have hne : (label == label') = false := by simpa using hp
      simp only [places, lookup_cons, hne, hlookup, flatMap_cons, itemsLength_append,
        Nat.add_assoc]

end Items

theorem Stands.unique {whole code : Code} {entry a b : UInt64} (ha : Stands whole entry code a)
    (hb : Stands whole entry code b) : a = b := by
  obtain ⟨front, rfl, rfl⟩ := ha
  obtain ⟨front', hwhole, rfl⟩ := hb
  have hlen := congrArg codeLength hwhole
  rw [codeLength_append, codeLength_append] at hlen
  rw [show codeLength front = codeLength front' by omega]

namespace Written

variable {f : Written}

theorem codeLength_code (f : Written) :
    codeLength f.code =
      codeLength (prologue f.frame) + (itemsLength f.items + codeLength epilogue) := by
  rw [code, codeLength_append, codeLength_append, body, codeLength_resolve]

/-- The address of a position of the buffer, if the function stands at `entry`. -/
def address (f : Written) (entry : UInt64) (pos : Nat) : UInt64 :=
  entry + (pos - f.start).toUInt64

/-- Control is in front of some items at address `a`. -/
def At (f : Written) (entry : UInt64) (back : List Item) (a : UInt64) : Prop :=
  ∃ front, f.items = front ++ back ∧ a = f.address entry (f.first + itemsLength front)

variable {entry a b : UInt64} {s s' : State} {back : List Item}

theorem At.stands (entry : UInt64) (hitems : f.items = front ++ back) :
    Stands f.code entry (resolve f.target (f.first + itemsLength front) back ++ epilogue)
      (f.address entry (f.first + itemsLength front)) := by
  refine ⟨prologue f.frame ++ resolve f.target f.first front, ?_, ?_⟩
  · rw [code, body, hitems, resolve_append, append_assoc, append_assoc]
  · rw [codeLength_append, codeLength_resolve, address, first]
    congr 2
    omega

/-- Items without jumps between blocks are run as they are. -/
theorem At.runs {code rest : Code} (hat : f.At entry (code.map .plain ++ back) a)
    (hrun : Runs code s rest s') (hload : Loaded f.code entry s)
    (hspares : Spares f.code entry s') :
    ∃ n b, Cpu.run n ⟨s, a⟩ = .ok ⟨s', b⟩ ∧
      (∃ tail, Stands f.code entry (rest ++ tail) b) ∧ (rest = [] → f.At entry back b) := by
  obtain ⟨front, hitems, rfl⟩ := hat
  have hstands := At.stands entry hitems
  rw [resolve_append, resolve_map_plain, itemsLength_map_plain, append_assoc] at hstands
  obtain ⟨n, b, hb, hn⟩ := (hrun.append _).steps hload hspares hstands
  refine ⟨n, b, hn, ⟨_, hb⟩, ?_⟩
  rintro rfl
  have hitems' : f.items = (front ++ code.map .plain) ++ back := by
    rw [hitems, append_assoc]
  have hplace := At.stands entry hitems'
  rw [itemsLength_append, itemsLength_map_plain, ← Nat.add_assoc] at hplace
  refine ⟨front ++ code.map .plain, hitems', ?_⟩
  rw [itemsLength_append, itemsLength_map_plain, ← Nat.add_assoc]
  exact hb.unique hplace

/-- A target that has a position. -/
def HasPlace (f : Written) : Target → Prop
  | .block label => label ∈ f.blocks.map Placed.label
  | .epilogue => True

theorem hasPlace_of_jump {w : Workspace} {g : Graph} {h : Homes}
    (hc : Chained w g h (· ∈ f.blocks.map Placed.label) f.blocks) {t : Target}
    (hjump : .jump c t ∈ f.items) : f.HasPlace t := by
  rcases hc.known_of_jump hjump with rfl | ⟨label, rfl, hin⟩
  · trivial
  · exact hin

theorem target_epilogue (f : Written) : f.target .epilogue = f.first + itemsLength f.items :=
  places_end _ _

/-- A jump to a block comes to its items and what stands behind them. -/
theorem at_block (hin : label ∈ f.blocks.map Placed.label) (entry : UInt64) :
    ∃ front items back, f.blocks = front ++ ⟨label, items⟩ :: back ∧
      f.target (.block label) = f.first + itemsLength (front.flatMap Placed.items) ∧
      f.At entry (items ++ back.flatMap Placed.items) (f.address entry (f.target (.block label))) := by
  obtain ⟨front, items, back, hblocks, hlookup⟩ := places_lookup hin
  have htarget : f.target (.block label) = f.first + itemsLength (front.flatMap Placed.items) := by
    rw [target, Target.offset, hlookup]
    rfl
  refine ⟨front, items, back, hblocks, htarget, front.flatMap Placed.items, ?_, ?_⟩
  · rw [Written.items, hblocks, flatMap_append, flatMap_cons]
  · rw [htarget]

theorem HasPlace.bounds {t : Target} (ht : f.HasPlace t) :
    f.first ≤ f.target t ∧ f.target t ≤ f.first + itemsLength f.items := by
  cases t with
  | epilogue => rw [target_epilogue]; omega
  | block label =>
    obtain ⟨front, items, back, hblocks, htarget, -⟩ := at_block ht 0
    have hle : itemsLength (front.flatMap Placed.items) ≤ itemsLength f.items := by
      rw [Written.items, hblocks, flatMap_append, itemsLength_append]
      omega
    omega

/-- The distance of a jump leads from the position behind it to its target. -/
theorem address_target {t : Target} (ht : f.HasPlace t) (hshort : codeLength f.code < 2 ^ 31)
    (hlow : f.first ≤ next) (hhigh : next ≤ f.first + itemsLength f.items) :
    f.address entry next + (Int32.ofInt ((f.target t : Int) - next)).toInt64.toUInt64 =
      f.address entry (f.target t) := by
  obtain ⟨hlow', hhigh'⟩ := ht.bounds
  rw [codeLength_code] at hshort
  have hstart : f.start ≤ f.first := by simp [first]
  rw [word_ofInt (by omega) (by omega), address, address, UInt64.add_assoc]
  congr 1
  apply UInt64.toNat_inj.mp
  rw [UInt64.toNat_add, Nat.toUInt64_eq, Nat.toUInt64_eq, UInt64.toNat_ofNat',
    UInt64.toNat_ofNat', UInt64.ofInt, UInt64.toNat_ofNat']
  omega

theorem address_add (entry : UInt64) (hpos : f.start ≤ pos) (n : Nat) :
    f.address entry pos + n.toUInt64 = f.address entry (pos + n) := by
  rw [address, address, UInt64.add_assoc, ← toUInt64_add]
  congr 2
  omega

theorem address_jump {t : Target} (hitems : f.items = front ++ .jump c t :: back)
    (hshort : codeLength f.code < 2 ^ 31) (ht : f.HasPlace t) :
    f.address entry (f.first + itemsLength front) + (Item.jump c t).length.toUInt64 +
      (Int32.ofInt ((f.target t : Int) - (f.first + itemsLength front + (Item.jump c t).length : Nat))
        ).toInt64.toUInt64 = f.address entry (f.target t) := by
  have hlength := congrArg itemsLength hitems
  rw [itemsLength_append, itemsLength_cons] at hlength
  rw [f.address_add entry (by simp only [first]; omega)]
  exact address_target ht hshort (by omega) (by omega)

theorem At.jump {t : Target} (hat : f.At entry (.jump none t :: back) a)
    (hload : Loaded f.code entry s) (ht : f.HasPlace t) :
    (⟨s, a⟩ : Cpu).step = .ok ⟨s, f.address entry (f.target t)⟩ := by
  obtain ⟨front, hitems, rfl⟩ := hat
  have hstep := step_jmp (c := ⟨s, f.address entry (f.first + itemsLength front)⟩)
    ((At.stands entry hitems).codeAt hload)
  rw [hstep, ← address_jump hitems hload.short ht]
  rfl

/-- A branch is taken, or control goes on behind it. -/
theorem At.branch {c : Cond} {t : Target} {b : Bool} (hat : f.At entry (.jump (some c) t :: back) a)
    (hload : Loaded f.code entry s) (ht : f.HasPlace t) (hc : c.code < 16)
    (hb : s.holds c = .ok b) :
    ∃ next, f.At entry back next ∧
      (⟨s, a⟩ : Cpu).step = .ok ⟨s, if b then f.address entry (f.target t) else next⟩ := by
  obtain ⟨front, hitems, rfl⟩ := hat
  have hstep := step_jcc (c := ⟨s, f.address entry (f.first + itemsLength front)⟩)
    ((At.stands entry hitems).codeAt hload) ⟨hc, rfl⟩ hb
  have hstart : f.start ≤ f.first + itemsLength front := by simp only [first]; omega
  have hnext := f.address_add entry hstart (Item.jump (some c) t).length
  refine ⟨f.address entry (f.first + itemsLength front + (Item.jump (some c) t).length),
    ⟨front ++ [.jump (some c) t], by simp [hitems], ?_⟩, ?_⟩
  · rw [itemsLength_append, itemsLength_cons, itemsLength_nil, Nat.add_zero, Nat.add_assoc]
  · rw [hstep]
    cases b with
    | false => rw [← hnext]; rfl
    | true => rw [if_pos rfl, ← address_jump hitems hload.short ht]; rfl

theorem stands_epilogue (f : Written) (entry : UInt64) :
    Stands f.code entry epilogue (f.address entry (f.target .epilogue)) := by
  have hstands := At.stands (f := f) entry (append_nil f.items).symm
  rwa [← target_epilogue] at hstands

theorem at_first (f : Written) (entry : UInt64) :
    f.At entry f.items (entry + (codeLength (prologue f.frame)).toUInt64) := by
  refine ⟨[], rfl, ?_⟩
  rw [itemsLength_nil, Nat.add_zero, address, first]
  congr 2
  omega

end Written

section Assemble

variable {w : Workspace} {g : Graph} {h : Homes} {b b' : CodeBuffer}

/-- At a position outside the buffer the prologue does not fit. -/
theorem error_prologue (hmisplaced : b.isMisplaced 1 = false)
    (hout : b.offset < 0 ∨ (b.capacity : Int) < b.offset) (frame : Nat) :
    ((prologue frame).foldl emit b).error ≠ none := by
  obtain ⟨rest, hrest⟩ : ∃ rest, (prologue frame).flatMap Instr.pieces = [0x55] :: rest := ⟨_, rfl⟩
  have hpiece : (b.piece [0x55]).error ≠ none := by
    by_cases herror : b.error = none
    · have hfull : (b.capacity : Int) < b.ahead 1 := by
        by_contra hroom
        rw [not_lt] at hroom
        have hin : 0 ≤ b.offset ∧ b.offset ≤ b.capacity := by
          simpa [isMisplaced, herror, hroom] using hmisplaced
        omega
      simp [piece, herror, hmisplaced, hfull]
    · rwa [piece_of_error herror]
  rw [foldl_emit, hrest, foldl_cons, foldl_piece_of_error hpiece]
  exact hpiece

/-- Code is only written to a buffer whose position is inside. -/
theorem inside_of_assemble (hroom : Host.canAllocate b.capacity 1 = true) {code : Assembled}
    (hok : assemble w b g = (.ok code, b')) : b.Inside := by
  simp only [Host.canAllocate, Host.maxAllocation, Bool.and_eq_true, decide_eq_true_eq] at hroom
  have hsmall : b.capacity < 2 ^ 62 := by
    have hle := of_decide_eq_true hroom.2
    push_cast at hle
    omega
  obtain ⟨hmisplaced, h, -, hwrite, -⟩ := assemble_eq_ok hok
  by_contra hout
  have hout' : b.offset < 0 ∨ (b.capacity : Int) < b.offset := by
    by_contra hin
    rw [not_or, not_lt, not_lt] at hin
    exact hout ⟨hin.1, hin.2, hsmall⟩
  obtain ⟨e, he⟩ := Option.ne_none_iff_exists'.mp (error_prologue hmisplaced hout' h.frameSize)
  simp [writeCode, he] at hwrite

/-- Assembled code is a written function. -/
theorem assemble_written (hb : b.Inside) {code : Assembled}
    (hok : assemble w b g = (.ok code, b')) :
    ∃ h rs, Homes.ofGraph g = .ok h ∧ layout w g h = (rs, none) ∧ code.frame = h.frameSize ∧
      0 < g.blocks.size ∧ code.length = codeLength
        (Written.code ⟨h.frameSize, code.offset, rs.flatten⟩) ∧
      b'.extract code.offset (code.offset + code.length) =
        (Written.code ⟨h.frameSize, code.offset, rs.flatten⟩).flatMap Instr.encode := by
  obtain ⟨-, h, hready, hwrite, rfl⟩ := assemble_eq_ok hok
  obtain ⟨hempty, -, hhomes⟩ := prepare_eq_ok.mp hready
  obtain ⟨hstop, happends⟩ := writeCode_appends ⟨hb, error_of_writeCode hwrite⟩ hwrite
  have hlow := hb.low
  have hoff := happends.offset
  refine ⟨h, (layout w g h).1, hhomes, Prod.ext rfl hstop, rfl,
    Array.size_pos_iff.mpr (Array.isEmpty_eq_false_iff.mp hempty), ?_, ?_⟩
  · rw [length_flatMap_encode] at hoff
    simp only
    omega
  · have hend : b.offset.toNat + (b'.offset.toNat - b.offset.toNat) = b'.offset.toNat := by
      omega
    rw [hend]
    exact happends.extract hb

end Assemble

end Dynarec.Native
