import Dynarec.Host.World
import Mathlib.Tactic

/-!
# Laws of a world

Nothing in the type of a world says that a register keeps what is written to it. `World.Lawful` says so
for the registers that a workspace binds: a cell reads back what was written, cells that share no byte
do not disturb each other, and the bus does not touch them. Calls are not restricted. `World.traced`
keeps a log of every access to the bus and every call, so that two runs can be compared by what they do.
-/
namespace Dynarec

/-- `n` bytes at `a` and `m` bytes at `b` have no byte in common. -/
def Apart (a : UInt64) (n : Nat) (b : UInt64) (m : Nat) : Prop :=
  ∀ i < n, ∀ j < m, a + i.toUInt64 ≠ b + j.toUInt64

instance (a : UInt64) (n : Nat) (b : UInt64) (m : Nat) : Decidable (Apart a n b m) :=
  inferInstanceAs (Decidable (∀ i < n, ∀ j < m, _))

/-- Different bound registers have no byte in common. -/
def Workspace.RegistersApart (w : Workspace) : Prop :=
  ∀ r r', r ≠ r' → (w.binding r).isBound = true → (w.binding r').isBound = true →
    Apart (w.binding r).cell (w.binding r).ty.accessBytes
      (w.binding r').cell (w.binding r').ty.accessBytes

theorem Workspace.registersApart_of_table {w : Workspace}
    (h : ∀ r < w.bindings.size, ∀ r' < w.bindings.size, r ≠ r' →
      (w.binding r).isBound = true → (w.binding r').isBound = true →
      Apart (w.binding r).cell (w.binding r).ty.accessBytes
        (w.binding r').cell (w.binding r').ty.accessBytes) : w.RegistersApart := by
  have hin (r : Int) (hr : (w.binding r).isBound = true) :
      ∃ k < w.bindings.size, r = (k : Nat) := by
    unfold binding entryAt? at hr
    split_ifs at hr with hneg
    · simp [Binding.isBound] at hr
    · by_cases hlt : r.toNat < w.bindings.size
      · exact ⟨r.toNat, hlt, by omega⟩
      · rw [Array.getElem?_eq_none (by omega)] at hr
        simp [Binding.isBound] at hr
  intro r r' hne hr hr'
  obtain ⟨k, hk, rfl⟩ := hin r hr
  obtain ⟨k', hk', rfl⟩ := hin r' hr'
  exact h k hk k' hk' (by omega) hr hr'

def World.register {σ : Type} (W : World σ) (w : Workspace) (s : σ) (r : Int) : UInt64 :=
  W.readCell s (w.binding r).cell (w.binding r).ty.accessBytes

/-- The registers of a workspace are cells of memory, and the bus leaves them alone. -/
structure World.Lawful {σ : Type} (W : World σ) (w : Workspace) : Prop where
  read_write : ∀ s a n x, n ≤ 8 →
    (W.readCell (W.writeCell s a n x) a n).toNat = x.toNat % 2 ^ (8 * n)
  read_write_apart : ∀ s a n x b m, Apart b m a n →
    W.readCell (W.writeCell s a n x) b m = W.readCell s b m
  load_register : ∀ s n a r, (w.binding r).isBound = true →
    W.register w (W.load s n a).2 r = W.register w s r
  store_register : ∀ s n a x r, (w.binding r).isBound = true →
    W.register w (W.store s n a x).2 r = W.register w s r

/-- What a run does outside its own variables, slots and registers. -/
inductive RunEvent where
  | load (bytes : Nat) (addr : UInt64) (result : Option UInt64)
  | store (bytes : Nat) (addr x : UInt64) (done : Bool)
  | call (target : Func) (args : List UInt64) (result : UInt64)
deriving DecidableEq

/-- The same world with a log of its events. -/
def World.traced {σ : Type} (W : World σ) : World (σ × List RunEvent) where
  readCell s := W.readCell s.1
  writeCell s cell n x := (W.writeCell s.1 cell n x, s.2)
  load s n addr :=
    let r := W.load s.1 n addr
    (r.1, (r.2, s.2 ++ [.load n addr r.1]))
  store s n addr x :=
    let r := W.store s.1 n addr x
    (r.1, (r.2, s.2 ++ [.store n addr x r.1]))
  call fn := (W.call fn).map fun impl args s =>
    let r := impl args s.1
    (r.1, (r.2, s.2 ++ [.call fn args r.1]))

theorem World.Lawful.traced {σ : Type} {W : World σ} {w : Workspace} (h : W.Lawful w) :
    W.traced.Lawful w where
  read_write s a n x hn := h.read_write s.1 a n x hn
  read_write_apart s a n x b m hab := h.read_write_apart s.1 a n x b m hab
  load_register s n a r hr := h.load_register s.1 n a r hr
  store_register s n a x r hr := h.store_register s.1 n a x r hr

namespace Run

variable {σ : Type}

def forget : Step (σ × List RunEvent) → Step σ
  | .next f s => .next f s.1
  | .jump label f s => .jump label f s.1
  | .stop o s => .stop o s.1

@[simp] theorem forget_next (f : Frame) (s : σ × List RunEvent) :
    forget (.next f s) = .next f s.1 := rfl

@[simp] theorem forget_jump (label : Nat) (f : Frame) (s : σ × List RunEvent) :
    forget (.jump label f s) = .jump label f s.1 := rfl

@[simp] theorem forget_stop (o : Outcome) (s : σ × List RunEvent) :
    forget (.stop o s) = .stop o s.1 := rfl

@[simp] theorem forget_settle (i : Instr) (f : Frame) (s : σ × List RunEvent) (x : UInt64) :
    forget (settle i f s x) = settle i f s.1 x := by
  unfold settle
  cases f.assign i x <;> rfl

@[simp] theorem forget_withValues (f : Frame) (s : σ × List RunEvent) (vs : List Value)
    (k : List UInt64 → Step (σ × List RunEvent)) :
    forget (withValues f s vs k) = withValues f s.1 vs fun xs => forget (k xs) := by
  unfold withValues
  cases f.values? vs <;> rfl

theorem forget_load (W : World σ) (i : Instr) (f : Frame) (s : σ × List RunEvent) (addr : UInt64) :
    forget (load W.traced i f s addr) = load W i f s.1 addr := by
  unfold load
  cases f.slot? addr i.ty.bytes with
  | some offset => simp
  | none =>
    simp only [World.traced]
    cases h : W.load s.1 i.ty.accessBytes addr with
    | mk r s' => cases r <;> simp [stopAt]

theorem forget_store (W : World σ) (i : Instr) (f : Frame) (s : σ × List RunEvent) (t : Ty)
    (addr x : UInt64) : forget (store W.traced i f s t addr x) = store W i f s.1 t addr x := by
  unfold store
  cases f.slot? addr t.bytes with
  | some offset => rfl
  | none =>
    simp only [World.traced]
    cases h : W.store s.1 t.accessBytes addr x with
    | mk r s' => cases r <;> simp [stopAt]

theorem forget_jumpTo (count label : Nat) (i : Instr) (f : Frame) (s : σ × List RunEvent) (t : Int) :
    forget (jump count label i f s t) = jump count label i f s.1 t := by
  unfold jump
  split_ifs <;> rfl

theorem forget_step (W : World σ) (w : Workspace) (count label : Nat) (f : Frame)
    (s : σ × List RunEvent) (i : Instr) :
    forget (step W.traced w count label f s i) = step W w count label f s.1 i := by
  obtain ⟨op, ty, res⟩ := i
  cases op with
  | call target params =>
    simp only [step]
    cases target with
    | none => rfl
    | some fn =>
      cases h : W.call fn with
      | none => simp [World.traced, h, stopAt]
      | some impl => simp [World.traced, h]
  | load a =>
    simp only [step]
    cases f.value? a with
    | none => rfl
    | some addr => exact forget_load W _ f s addr
  | store a x =>
    simp only [step]
    cases f.value? a with
    | none => rfl
    | some addr =>
      cases f.value? x with
      | none => rfl
      | some v => exact forget_store W _ f s _ addr v
  | br c ifFalse ifTrue =>
    simp only [step]
    cases f.value? c with
    | none => rfl
    | some a => exact forget_jumpTo _ _ _ _ _ _
  | assert c =>
    simp only [step]
    cases f.value? c with
    | none => rfl
    | some a => by_cases ha : a = 0 <;> simp [ha, stopAt]
  | read reg =>
    simp only [step]
    by_cases hb : (w.binding reg).isBound = true <;> simp [hb, stopAt, World.traced]
  | write reg x =>
    simp only [step]
    by_cases hb : (w.binding reg).isBound = true
    · cases hx : f.value? x <;> simp [hb, World.traced]
    · simp [hb, stopAt]
  | not x | cvt op x => simp only [step]; cases f.value? x <;> simp
  | binop op x y | icmp op x y => simp only [step]; cases f.value? x <;> cases f.value? y <;> simp
  | alloc slot => simp [step]
  | exit | unknown tag => rfl

theorem forget_block (W : World σ) (w : Workspace) (count label : Nat) (is : List Instr) (f : Frame)
    (s : σ × List RunEvent) :
    forget (block W.traced w count label f s is) = block W w count label f s.1 is := by
  induction is generalizing f s with
  | nil => rfl
  | cons i rest ih =>
    simp only [block]
    rw [← forget_step]
    cases h : step W.traced w count label f s i with
    | next f' s' => exact ih f' s'
    | jump t f' s' => rfl
    | stop o s' => rfl

theorem enter_traced (W : World σ) (w : Workspace) (g : Graph) (label : Nat) (f : Frame)
    (s : σ × List RunEvent) :
    Prod.map id Prod.fst (enter W.traced w g label f s) = enter W w g label f s.1 := by
  fun_induction enter W.traced w g label f s with
  | case1 label f s hlt f' s' hb | case4 label f s hlt o s' hb =>
    rw [enter, dif_pos hlt, ← forget_block, hb]
    rfl
  | case2 label f s hlt target f' s' hb hfwd ih =>
    conv_rhs => rw [enter, dif_pos hlt, ← forget_block, hb]
    simp only [forget_jump, hfwd, if_true]
    exact ih
  | case3 label f s hlt target f' s' hb hfwd =>
    rw [enter, dif_pos hlt, ← forget_block, hb]
    simp [hfwd]
  | case5 label f s hlt =>
    rw [enter, dif_neg hlt]
    rfl

end Run

/-- The log changes nothing in a run. -/
theorem Graph.run_traced {σ : Type} (W : World σ) (w : Workspace) (g : Graph) (s : σ)
    (log : List RunEvent) : Prod.map id Prod.fst (g.run W.traced w (s, log)) = g.run W w s := by
  unfold run
  split_ifs
  · rfl
  · rfl
  · exact Run.enter_traced W w g 0 _ (s, log)

end Dynarec
