import Dynarec.Graph.Builder
import Dynarec.Proofs.Graph.Tree

/-!
# What building appends

A step of building only appends to blocks and adds new ones, and once a step has failed nothing changes
any more (`Keeps`). `Straight` steps append to the current block and keep everything else. Both are
classes, so that instances find out that a step made of straight steps is straight; what it appends is
the concatenation of what its parts append.
-/
namespace Dynarec

/-- The blocks of `g` are beginnings of blocks of `g'`. -/
def Graph.Begins (g g' : Graph) : Prop :=
  ∀ {k : Nat} {blk : Block}, g.blocks[k]? = some blk →
    ∃ rest, g'.blocks[k]? = some { blk with instrs := blk.instrs ++ rest }

theorem Graph.Begins.refl (g : Graph) : g.Begins g := by
  intro k blk hblk
  exact ⟨[], by rw [List.append_nil, hblk]⟩

theorem Graph.Begins.trans {g g' g'' : Graph} (h : g.Begins g') (h' : g'.Begins g'') :
    g.Begins g'' := by
  intro k blk hblk
  obtain ⟨rest, hrest⟩ := h hblk
  obtain ⟨rest', hrest'⟩ := h' hrest
  exact ⟨rest ++ rest', by rw [hrest', List.append_assoc]⟩

namespace Builder

variable {b b' b'' : Builder}

variable {α β : Type}

/-- `b'` is `b` with `is` appended to its current block `k`. -/
structure Appended (k : Nat) (is : List Instr) (b b' : Builder) : Prop where
  error : b'.error = none
  current : b'.current = some k
  blocks : b'.graph.blocks =
    b.graph.blocks.modify k fun blk => { blk with instrs := blk.instrs ++ is }
  bindings : b'.space.bindings = b.space.bindings
  capacity : b'.space.capacity = b.space.capacity

theorem appended_nil {k : Nat} (he : b.error = none) (hk : b.current = some k) :
    Appended k [] b b := by
  refine ⟨he, hk, ?_, rfl, rfl⟩
  apply Array.ext_getElem?
  intro j
  rw [Array.getElem?_modify]
  split_ifs <;> simp

theorem Appended.trans {k : Nat} {is is' : List Instr} (h : Appended k is b b')
    (h' : Appended k is' b' b'') : Appended k (is ++ is') b b'' := by
  refine ⟨h'.error, h'.current, ?_, h'.bindings.trans h.bindings, h'.capacity.trans h.capacity⟩
  rw [h'.blocks, h.blocks]
  apply Array.ext_getElem?
  intro j
  simp only [Array.getElem?_modify]
  split_ifs
  · simp [Function.comp_def]
  · rfl

/-- What was built stays, and so do the bindings. -/
structure Onward (b b' : Builder) : Prop where
  begins : b.graph.Begins b'.graph
  bindings : b'.space.bindings = b.space.bindings

theorem onward_of_eq (hgraph : b'.graph = b.graph)
    (hbindings : b'.space.bindings = b.space.bindings) : Onward b b' := by
  refine ⟨?_, hbindings⟩
  intro k blk hblk
  exact ⟨[], by simp [hgraph, hblk]⟩

theorem Onward.refl (b : Builder) : Onward b b :=
  onward_of_eq rfl rfl

theorem Onward.trans (h : Onward b b') (h' : Onward b' b'') : Onward b b'' :=
  ⟨Graph.Begins.trans h.begins h'.begins, h'.bindings.trans h.bindings⟩

/-- A step that only adds to the graph, and changes nothing after a failure. -/
class Keeps (a : Build α) : Prop where
  onward : ∀ b : Builder, Onward b (a b).2
  keeps : ∀ b : Builder, b.error.isSome = true → (a b).2 = b

/-- A step that appends to the current block and changes nothing after a failure. -/
class Straight (a : Build α) : Prop extends Keeps a where
  appends : ∀ {b : Builder} {k : Nat}, b.current = some k → (a b).2.error = none →
    ∃ is, Appended k is b (a b).2

theorem bind_apply (a : Build α) (g : α → Build β) (b : Builder) :
    (a >>= g) b = g (a b).1 (a b).2 := rfl

theorem pure_apply (x : α) (b : Builder) : (pure x : Build α) b = (x, b) := rfl

theorem get_apply (b : Builder) : (get : Build Builder) b = (b, b) := rfl

theorem Keeps.error_eq_none (a : Build α) [Keeps a] (he : (a b).2.error = none) :
    b.error = none := by
  by_contra hb
  rw [Keeps.keeps b (Option.isSome_iff_ne_none.mpr hb)] at he
  exact hb he

section Instances

variable {a a' : Build α} {g : α → Build β} {p : Prop} [Decidable p]

instance [Keeps a] [∀ x, Keeps (g x)] : Keeps (a >>= g) where
  onward b := (Keeps.onward b).trans (Keeps.onward (a b).2)
  keeps b he := by
    rw [bind_apply, Keeps.keeps b he, Keeps.keeps b he]

instance [Keeps a] [Keeps a'] : Keeps (if p then a else a') := by
  split_ifs <;> assumption

instance (label : Int) : Keeps (setBlock label) where
  onward b := by
    unfold setBlock
    split_ifs <;> exact onward_of_eq rfl rfl
  keeps b he := by simp [setBlock, he]

instance (x : α) : Straight (pure x : Build α) where
  onward b := Onward.refl b
  keeps _ _ := rfl
  appends hk he := ⟨[], appended_nil he hk⟩

instance [Straight a] [∀ x, Straight (g x)] : Straight (a >>= g) where
  appends {b k} hk he := by
    rw [bind_apply] at he ⊢
    obtain ⟨is, his⟩ := Straight.appends hk (Keeps.error_eq_none (g _) he)
    obtain ⟨is', his'⟩ := Straight.appends his.current he
    exact ⟨is ++ is', his.trans his'⟩

instance [Straight a] [Straight a'] : Straight (if p then a else a') := by
  split_ifs <;> assumption

end Instances

/-- The instruction that appending `op` to `b` adds. -/
def numbered (b : Builder) (op : Op) (t : Ty) : Instr :=
  let bare : Instr := ⟨op, t, 0⟩
  if bare.hasResult then { bare with res := b.graph.varCount } else bare

@[simp] theorem numbered_op (b : Builder) (op : Op) (t : Ty) : (b.numbered op t).op = op := by
  unfold numbered
  dsimp only
  split_ifs <;> rfl

@[simp] theorem numbered_ty (b : Builder) (op : Op) (t : Ty) : (b.numbered op t).ty = t := by
  unfold numbered
  dsimp only
  split_ifs <;> rfl

theorem hasResult_congr {i i' : Instr} (hop : i.op = i'.op) (hty : i.ty = i'.ty) :
    i.hasResult = i'.hasResult := by
  simp only [Instr.hasResult, hop, hty]

theorem numbered_res {op : Op} {t : Ty} (h : (b.numbered op t).hasResult = true) :
    (b.numbered op t).res = b.graph.varCount := by
  have hbare : Instr.hasResult ⟨op, t, 0⟩ = true :=
    (hasResult_congr (numbered_op b op t) (numbered_ty b op t)).symm.trans h
  simp [numbered, hbare]

/-- All that appending an operation can do. -/
theorem emit_cases (op : Op) (t : Ty) (he : b.error = none) :
    (b.isTerminated = true ∧
      emit op t b = (Value.none, { b with error := some (.terminated b.block) })) ∨
    (b.space.capacity.instrs ≤ b.space.used.instrs ∧
      emit op t b = (Value.none, { b with error := some (.instrsFull b.space.capacity.instrs) })) ∨
    ∃ k, b.current = some k ∧ b.isTerminated = false ∧
      b.space.used.instrs < b.space.capacity.instrs ∧
      emit op t b = ((b.numbered op t).result, b.push k (b.numbered op t)) := by
  cases hk : b.current with
  | none =>
    refine Or.inl ⟨by simp [isTerminated, hk], ?_⟩
    simp [emit, he, hk]
  | some k =>
    cases hterm : b.isTerminated with
    | true => exact Or.inl ⟨rfl, by simp [emit, he, hk, hterm]⟩
    | false =>
      rcases Nat.lt_or_ge b.space.used.instrs b.space.capacity.instrs with hlt | hge
      · refine Or.inr (Or.inr ⟨k, rfl, rfl, hlt, ?_⟩)
        simp [emit, he, hk, hterm, Nat.not_le.mpr hlt, numbered]
      · exact Or.inr (Or.inl ⟨hge, by simp [emit, he, hk, hterm, hge]⟩)

theorem emit_of_error {op : Op} {t : Ty} (he : b.error.isSome = true) :
    emit op t b = (Value.none, b) := by
  simp [emit, he]

def withBlock (b : Builder) : Builder :=
  { b with
    space := { b.space with used := { b.space.used with blocks := b.space.used.blocks + 1 } }
    graph := { b.graph with blocks := b.graph.blocks.push ⟨b.graph.blocks.size, []⟩ } }

theorem withBlock_getElem? {k : Nat} (hk : k < b.graph.blocks.size) :
    b.withBlock.graph.blocks[k]? = b.graph.blocks[k]? := by
  simp only [withBlock]
  rw [Array.getElem?_push_lt hk, Array.getElem?_eq_getElem hk]

@[simp] theorem withBlock_getElem?_size (b : Builder) :
    b.withBlock.graph.blocks[b.graph.blocks.size]? = some ⟨b.graph.blocks.size, []⟩ := by
  simp [withBlock]

@[simp] theorem withBlock_size (b : Builder) :
    b.withBlock.graph.blocks.size = b.graph.blocks.size + 1 := by
  simp [withBlock]

theorem newBlock_cases (he : b.error = none) :
    (b.space.capacity.blocks ≤ b.space.used.blocks ∧
      newBlock b = (-1, { b with error := some (.blocksFull b.space.capacity.blocks) })) ∨
    (b.space.used.blocks < b.space.capacity.blocks ∧
      newBlock b = ((b.graph.blocks.size : Int), b.withBlock)) := by
  rcases Nat.lt_or_ge b.space.used.blocks b.space.capacity.blocks with hlt | hge
  · refine Or.inr ⟨hlt, ?_⟩
    rw [newBlock, if_neg (by simp [he]), if_neg (Nat.not_le.mpr hlt)]
    rfl
  · refine Or.inl ⟨hge, ?_⟩
    rw [newBlock, if_neg (by simp [he]), if_pos hge]

theorem onward_withBlock (b : Builder) : Onward b b.withBlock := by
  refine ⟨?_, rfl⟩
  intro k blk hblk
  rw [withBlock_getElem? (Array.getElem?_eq_some_iff.mp hblk).1]
  exact ⟨[], by rw [hblk, List.append_nil]⟩

instance : Keeps newBlock where
  onward b := by
    cases he : b.error with
    | some e =>
      simp only [newBlock, he, Option.isSome_some, if_true]
      exact .refl b
    | none =>
      rcases newBlock_cases he with ⟨-, h⟩ | ⟨-, h⟩
      · rw [h]
        exact onward_of_eq rfl rfl
      · rw [h]
        exact onward_withBlock b
  keeps b he := by simp [newBlock, he]

theorem setBlock_apply {k : Nat} (he : b.error = none) (hk : k < b.graph.blocks.size) :
    setBlock k b = ((), { b with current := some k }) := by
  rw [setBlock, if_neg (by simp [he]), if_neg (by omega)]
  rfl

theorem fail_apply {e : BuildError} (he : b.error = none) : (fail e b).2 = { b with error := some e } := by
  change (if b.error.isSome then b else { b with error := some e }) = _
  rw [if_neg (by simp [he])]

def withParams (b : Builder) (n : Nat) : Builder :=
  { b with space := { b.space with used := { b.space.used with params := b.space.used.params + n } } }

theorem call_of_error {target : Option Func} {t : Ty} {params : List Value}
    (he : b.error.isSome = true) : call target t params b = (Value.none, b) := by
  simp [call, he]

theorem call_cases (target : Option Func) (t : Ty) (params : List Value) (he : b.error = none) :
    (b.space.capacity.params < b.space.used.params + params.length ∧
      (call target t params b).2 =
        { b with error := some (.paramsFull b.space.capacity.params) }) ∨
    (b.space.used.params + params.length ≤ b.space.capacity.params ∧
      (call target t params b).2 =
        (emit (.call target params) t (b.withParams params.length)).2) := by
  rcases Nat.lt_or_ge b.space.capacity.params (b.space.used.params + params.length) with hlt | hge
  · exact Or.inl ⟨hlt, by simp [call, he, hlt]⟩
  · refine Or.inr ⟨hge, ?_⟩
    rw [call, if_neg (by simp [he]), if_neg (Nat.not_lt.mpr hge)]
    rfl

theorem appended_push {k : Nat} (he : b.error = none) (hk : b.current = some k) (i : Instr) :
    Appended k [i] b (b.push k i) :=
  ⟨he, hk, rfl, rfl, rfl⟩

theorem onward_push (b : Builder) (k : Nat) (i : Instr) : Onward b (b.push k i) := by
  refine ⟨?_, rfl⟩
  intro j blk hblk
  simp only [push, Array.getElem?_modify, hblk]
  split_ifs
  · exact ⟨[i], rfl⟩
  · exact ⟨[], by rw [List.append_nil]⟩

instance (op : Op) (t : Ty) : Straight (emit op t) where
  onward b := by
    cases he : b.error with
    | some e =>
      rw [emit_of_error (by simp [he])]
      exact .refl b
    | none =>
      rcases emit_cases op t he with ⟨-, h⟩ | ⟨-, h⟩ | ⟨k, -, -, -, h⟩
      · rw [h]
        exact onward_of_eq rfl rfl
      · rw [h]
        exact onward_of_eq rfl rfl
      · rw [h]
        exact onward_push b k _
  keeps b he := by rw [emit_of_error he]
  appends {b k} hk he := by
    have hb : b.error = none := by
      by_contra hne
      rw [emit_of_error (Option.isSome_iff_ne_none.mpr hne)] at he
      exact hne he
    rcases emit_cases op t hb with ⟨-, h⟩ | ⟨-, h⟩ | ⟨k', hk', -, -, h⟩
    · simp [h] at he
    · simp [h] at he
    · rw [h]
      cases hk.symm.trans hk'
      exact ⟨_, appended_push hb hk _⟩

instance (op : Op) : Straight (emit_ op) := by
  unfold emit_
  infer_instance

instance (op : BinOp) (x y : Value) : Straight (binop op x y) := by
  unfold binop
  infer_instance

instance (op : CmpOp) (x y : Value) : Straight (icmp op x y) := by
  unfold icmp
  infer_instance

instance (x : Value) : Straight (Builder.not x) := by
  unfold Builder.not
  infer_instance

instance (op : CvtOp) (t : Ty) (x : Value) : Straight (cvt op t x) := by
  unfold cvt
  infer_instance

instance (t : Ty) (x : Value) : Straight (trunc t x) := by
  unfold trunc
  infer_instance

instance (t : Ty) (x : Value) : Straight (sext t x) := by
  unfold sext
  infer_instance

instance (t : Ty) (x : Value) : Straight (zext t x) := by
  unfold zext
  infer_instance

instance (t : Ty) (a : Value) : Straight (load t a) := by
  unfold load
  infer_instance

instance (a x : Value) : Straight (store a x) := by
  unfold store
  infer_instance

instance (t : Ty) : Straight (alloc t) := by
  unfold alloc
  infer_instance

instance (cond : Value) : Straight (assert cond) := by
  unfold assert
  infer_instance

instance : Straight exit := by
  unfold exit
  infer_instance

instance (c : Value) (t₀ t₁ : Int) : Straight (br c t₀ t₁) := by
  unfold br
  infer_instance

instance (e : BuildError) : Straight (fail e) where
  onward b := by
    change Onward b (if b.error.isSome then b else { b with error := some e })
    split_ifs
    · exact .refl b
    · exact onward_of_eq rfl rfl
  keeps b he := by
    change (if b.error.isSome then b else { b with error := some e }) = b
    rw [if_pos he]
  appends {b k} hk he := by
    change (if b.error.isSome then b else { b with error := some e }).error = none at he
    split_ifs at he with hb
    simp [he] at hb

instance (reg : Int) (t : Ty) : Straight (read reg t) where
  onward b := by
    simp only [read]
    split_ifs
    · exact .refl b
    · exact Keeps.onward b
    · exact Keeps.onward b
  keeps b he := by
    simp only [read]
    split_ifs
    · rfl
    · exact Keeps.keeps b he
    · exact Keeps.keeps b he
  appends {b k} hk he := by
    simp only [read] at he ⊢
    split_ifs at he ⊢
    · exact ⟨[], appended_nil he hk⟩
    · exact Straight.appends hk he
    · exact Straight.appends hk he

instance (reg : Int) (x : Value) : Straight (write reg x) where
  onward b := by
    simp only [write]
    split_ifs
    · exact .refl b
    · exact Keeps.onward b
    · exact Keeps.onward b
  keeps b he := by
    simp only [write]
    split_ifs
    · rfl
    · exact Keeps.keeps b he
    · exact Keeps.keeps b he
  appends {b k} hk he := by
    simp only [write] at he ⊢
    split_ifs at he ⊢
    · exact ⟨[], appended_nil he hk⟩
    · exact Straight.appends hk he
    · exact Straight.appends hk he

instance (target : Option Func) (t : Ty) (params : List Value) :
    Straight (call target t params) where
  onward b := by
    cases he : b.error with
    | some e =>
      rw [call_of_error (by simp [he])]
      exact .refl b
    | none =>
      rcases call_cases target t params he with ⟨-, h⟩ | ⟨-, h⟩
      · rw [h]
        exact onward_of_eq rfl rfl
      · rw [h]
        have hparams : Onward b (b.withParams params.length) := onward_of_eq rfl rfl
        exact hparams.trans (Keeps.onward (a := emit (.call target params) t) _)
  keeps b he := by rw [call_of_error he]
  appends {b k} hk he := by
    have hb : b.error = none := by
      by_contra hne
      rw [call_of_error (Option.isSome_iff_ne_none.mpr hne)] at he
      exact hne he
    rcases call_cases target t params hb with ⟨-, h⟩ | ⟨-, h⟩
    · rw [h] at he
      cases he
    · rw [h] at he ⊢
      obtain ⟨is, his⟩ := Straight.appends (a := emit (.call target params) t)
        (b := b.withParams params.length) hk he
      exact ⟨is, his.error, his.current, his.blocks, his.bindings, his.capacity⟩

end Builder

end Dynarec
