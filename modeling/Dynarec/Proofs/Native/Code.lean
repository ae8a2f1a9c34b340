import Dynarec.Native.Select
import Dynarec.Proofs.Graph.Typing
import Dynarec.Proofs.Machine.RoundTrip
import Mathlib.Order.CompletePartialOrder

/-!
# Running code

`Runs` says what a list of instructions does when it is run from its start, where jumps go forward over
instructions of the list. `Runs.steps` carries this over to a processor with the code in its memory: it
comes to the same state, provided that nothing is written to the code. What an instruction writes is in
the log, so it is enough to look at the log at the end.
-/
namespace Dynarec

open List

variable {a : UInt64} {n : Nat} {m : Memory} {s s' s'' : State} {code rest code' skipped : Code}

def span (a : UInt64) (n : Nat) : Set UInt64 :=
  { x | (x - a).toNat < n }

theorem mem_span_add {j : Nat} (hj : j < n) : a + j.toUInt64 ∈ span a n := by
  show (a + j.toUInt64 - a).toNat < n
  rw [show a + j.toUInt64 - a = j.toUInt64 by grind, Nat.toUInt64_eq, UInt64.toNat_ofNat']
  exact (Nat.mod_le _ _).trans_lt hj

namespace Memory

theorem length_range (m : Memory) (a : UInt64) (n : Nat) : (m.range a n).length = n := by
  induction n generalizing a with
  | zero => rfl
  | succ n ih => rw [range, length_cons, ih]

theorem range_add (m : Memory) (a : UInt64) (n k : Nat) :
    m.range a (n + k) = m.range a n ++ m.range (a + n.toUInt64) k := by
  induction n generalizing a with
  | zero => simp [range]
  | succ n ih => rw [Nat.succ_add, range, range, ih, cons_append, offset_succ]

theorem write_of_notMem {b : UInt64} (h : b ∉ span a n) (x : UInt64) : m.write a n x b = m b := by
  refine setRange_of_ne fun j hj hb => h ?_
  rw [Bytes.length_ofWordLE] at hj
  exact hb ▸ mem_span_add hj

end Memory

namespace Machine

def Transfer.span (e : Transfer) : Set UInt64 :=
  Dynarec.span e.addr e.bytes

/-- What changed in memory on the way from `s` to `s'` was written, and what was written is in the
log. -/
def State.Logs (s s' : State) : Prop :=
  ∃ l, s'.log = s.log ++ l ∧
    ∀ a, (∀ e ∈ l, e.isWrite = true → a ∉ e.span) → s'.memory a = s.memory a

namespace State

theorem Logs.trans (h : s.Logs s') (h' : s'.Logs s'') : s.Logs s'' := by
  obtain ⟨l, hl, hm⟩ := h
  obtain ⟨l', hl', hm'⟩ := h'
  refine ⟨l ++ l', by rw [hl', hl, append_assoc], fun a ha => ?_⟩
  rw [hm' a fun e he => ha e (mem_append_right l he),
    hm a fun e he => ha e (mem_append_left l' he)]

theorem logs_of_eq (hlog : s'.log = s.log) (hmemory : s'.memory = s.memory) : s.Logs s' :=
  ⟨[], by rw [hlog, append_nil], fun a _ => by rw [hmemory]⟩

theorem logs_read (s : State) (a : UInt64) (n : Nat) : s.Logs (s.read a n).2 :=
  ⟨_, rfl, fun _ _ => rfl⟩

theorem logs_write (s : State) (a : UInt64) (n : Nat) (x : UInt64) : s.Logs (s.write a n x) :=
  ⟨[⟨true, a, n, x⟩], rfl, fun _ hb =>
    Memory.write_of_notMem (hb ⟨true, a, n, x⟩ (mem_singleton_self _) rfl) x⟩

theorem logs_get (s : State) (size : Size) (o : Operand) : s.Logs (s.get size o).2 := by
  cases o with
  | reg r => exact logs_of_eq rfl rfl
  | mem m => exact s.logs_read _ _

theorem logs_set (s : State) (size : Size) (x : BitVec size.bits) (o : Operand) :
    s.Logs (s.set size x o) := by
  cases o with
  | reg r => exact logs_of_eq rfl rfl
  | mem m => exact s.logs_write _ _ _

theorem logs_shift (s : State) (op : ShiftOp) (size : Size) (rm : Operand) (count : Nat) :
    s.Logs (s.shift op size rm count) := by
  have h := (s.logs_get size rm).trans
    ((s.get size rm).2.logs_set size (op.result (s.get size rm).1 count) rm)
  simp only [shift]
  split
  · exact h
  · exact h.trans (logs_of_eq rfl rfl)

theorem logs_setQuotient {size : Size} {q : Option (BitVec size.bits × BitVec size.bits)}
    (h : s.setQuotient size q = .ok s') : s.Logs s' := by
  cases q with
  | none => simp [setQuotient] at h
  | some q =>
    cases h
    exact logs_of_eq rfl rfl

theorem logs_push (s : State) (x : UInt64) : s.Logs (s.push x) := by
  have h : s.Logs (s.setReg .rsp (s.regs .rsp - 8)) := logs_of_eq rfl rfl
  exact h.trans (logs_write _ _ _ _)

theorem logs_pop (s : State) : s.Logs s.pop.2 :=
  (s.logs_read _ _).trans (logs_of_eq rfl rfl)

end State

open State in
/-- Every instruction logs what it writes. -/
theorem Instr.logs_exec {i : Instr} (h : i.exec s = .ok s') : s.Logs s' := by
  cases i with
  | movTo size dst src | movImm size dst x =>
    cases h
    exact logs_set _ _ _ _
  | movImm32 | movImm64 | cdq | cqo | lea | nop =>
    cases h
    exact logs_of_eq rfl rfl
  | movFrom size dst src | movzx size dst src | movsx size dst src | imul size dst src =>
    cases h
    exact (logs_get _ _ _).trans (logs_of_eq rfl rfl)
  | movsxd dst src | test size rm reg =>
    cases h
    exact (logs_get _ _ _).trans (logs_of_eq rfl rfl)
  | alu op size dst src =>
    cases h
    refine (s.logs_get size src).trans ?_
    split <;> exact logs_of_eq rfl rfl
  | aluImm op size dst x =>
    cases h
    refine (s.logs_get size dst).trans ?_
    split
    · exact logs_of_eq rfl rfl
    · exact (logs_set _ _ _ _).trans (logs_of_eq rfl rfl)
  | unary op size rm =>
    cases op with
    | not =>
      cases h
      exact (logs_get _ _ _).trans (logs_set _ _ _ _)
    | neg =>
      cases h
      exact (logs_get _ _ _).trans ((logs_set _ _ _ _).trans (logs_of_eq rfl rfl))
    | div | idiv =>
      simp only [exec] at h
      split at h
      · cases h
      · exact (logs_get _ _ _).trans (logs_setQuotient h)
  | shiftCl | shiftImm =>
    cases h
    exact logs_shift _ _ _ _ _
  | setcc c rm =>
    simp only [exec] at h
    obtain ⟨b, -, ⟨⟩⟩ := Except.bind_eq_ok.mp h
    exact logs_set _ _ _ _
  | push r =>
    cases h
    exact logs_push _ _
  | pop r =>
    cases h
    exact (logs_pop s).trans (logs_of_eq rfl rfl)
  | call | ret | ud2 | jmp | jcc => cases h

/-- An instruction does not depend on the bits of its constant that encoding drops. -/
theorem Instr.exec_cut (i : Instr) (s : State) : i.cut.exec s = i.exec s := by
  cases i with
  | movImm size dst x =>
    exact congrArg (fun y => Except.ok (s.set size y dst)) (signExtend_readBack size false x)
  | aluImm op size dst x =>
    simp only [cut, exec, signExtend_readBack]
  | _ => rfl

/-- Whether all the bytes of an instruction are read as that instruction. -/
def Instr.Regular (i : Instr) : Prop :=
  i.HasForm ∧ i.surplus = 0

end Machine

namespace Native

open Machine

variable {i : Machine.Instr}

@[simp] theorem codeLength_nil : codeLength [] = 0 := rfl

@[simp] theorem codeLength_cons (i : Machine.Instr) (code : Code) :
    codeLength (i :: code) = i.length + codeLength code := rfl

@[simp] theorem codeLength_append (code code' : Code) :
    codeLength (code ++ code') = codeLength code + codeLength code' := by
  induction code with
  | nil => simp
  | cons i code ih => rw [cons_append, codeLength_cons, codeLength_cons, ih, Nat.add_assoc]

theorem length_flatMap_encode (code : Code) :
    (code.flatMap Machine.Instr.encode).length = codeLength code := by
  induction code with
  | nil => rfl
  | cons i code ih =>
    rw [flatMap_cons, length_append, ih]
    rfl

/-- The code stands in memory. -/
def CodeAt (m : Memory) (a : UInt64) (code : Code) : Prop :=
  m.range a (codeLength code) = code.flatMap Machine.Instr.encode

theorem codeAt_append :
    CodeAt m a (code ++ code') ↔
      CodeAt m a code ∧ CodeAt m (a + (codeLength code).toUInt64) code' := by
  unfold CodeAt
  rw [codeLength_append, Memory.range_add, flatMap_append]
  constructor
  · intro h
    refine append_inj h ?_
    rw [Memory.length_range, length_flatMap_encode]
  · rintro ⟨h, h'⟩
    rw [h, h']

/-- The processor finds the first instruction of the code. -/
theorem CodeAt.decode (h : CodeAt m a (i :: code)) (hi : i.Regular) :
    Machine.decode (m.range a Cpu.fetchSize) = some (i.cut, i.length) := by
  obtain ⟨hfirst, -⟩ := codeAt_append.mp (show CodeAt m a ([i] ++ code) from h)
  have hle : i.length ≤ Cpu.fetchSize := i.length_le
  have hlen : codeLength [i] = i.length := by simp
  unfold CodeAt at hfirst
  rw [hlen, flatMap_cons, flatMap_nil, append_nil] at hfirst
  rw [show Cpu.fetchSize = i.length + (Cpu.fetchSize - i.length) by omega, Memory.range_add, hfirst,
    decode_encode hi.1, hi.2, Nat.sub_zero]

/-- Code runs from its start in state `s` to state `s'`, with `rest` still to be run. A jump goes over
some of the instructions behind it. -/
inductive Runs : Code → State → Code → State → Prop
  | refl {code : Code} {s : State} : Runs code s code s
  | instr {i : Machine.Instr} {code rest : Code} {s s' s'' : State} (hi : i.exec s = .ok s')
      (h : Runs code s' rest s'') : Runs (i :: code) s rest s''
  | jmp {skipped code rest : Code} {s s' : State} (h : Runs code s rest s') :
      Runs (.jmp (displacement (codeLength skipped)) :: (skipped ++ code)) s rest s'
  | taken {c skipped code rest s s'} (hc : s.holds c = .ok true) (h : Runs code s rest s') : Runs
      (.jcc c (displacement (codeLength skipped)) :: (skipped ++ code)) s rest s'
  | passed {c rel code rest s s'} (hc : s.holds c = .ok false) (h : Runs code s rest s') : Runs
      (.jcc c rel :: code) s rest s'

namespace Runs

theorem trans (h : Runs code s code' s') (h' : Runs code' s' rest s'') : Runs code s rest s'' := by
  induction h with
  | refl => exact h'
  | instr hi _ ih => exact .instr hi (ih h')
  | jmp _ ih => exact .jmp (ih h')
  | taken hc _ ih => exact .taken hc (ih h')
  | passed hc _ ih => exact .passed hc (ih h')

theorem append (h : Runs code s rest s') (tail : Code) :
    Runs (code ++ tail) s (rest ++ tail) s' := by
  induction h with
  | refl => exact .refl
  | instr hi _ ih => exact .instr hi ih
  | jmp _ ih =>
    rw [cons_append, append_assoc]
    exact .jmp ih
  | taken hc _ ih =>
    rw [cons_append, append_assoc]
    exact .taken hc ih
  | passed hc _ ih => exact .passed hc ih

theorem seq (h : Runs code s [] s') (h' : Runs code' s' rest s'') :
    Runs (code ++ code') s rest s'' :=
  (h.append code').trans h'

theorem logs (h : Runs code s rest s') : s.Logs s' := by
  induction h with
  | refl => exact State.logs_of_eq rfl rfl
  | instr hi _ ih => exact (Machine.Instr.logs_exec hi).trans ih
  | jmp _ ih | taken _ _ ih | passed _ _ ih => exact ih

end Runs

theorem toBitVec_ofInt (d : Int) : (UInt64.ofInt d).toBitVec = BitVec.ofInt 64 d := by
  apply BitVec.eq_of_toNat_eq
  have h := Int.emod_lt_of_pos d (show (0 : Int) < 2 ^ 64 by decide)
  rw [BitVec.toNat_ofInt, UInt64.toNat_toBitVec, UInt64.ofInt, UInt64.toNat_ofNat']
  omega

/-- A distance that fits in its field is the number it stands for. -/
theorem word_ofInt {d : Int} (hlow : -2 ^ 31 ≤ d) (hhigh : d < 2 ^ 31) :
    (Int32.ofInt d).toInt64.toUInt64 = UInt64.ofInt d := by
  have h32 : (BitVec.ofInt 32 d).toInt = d := by
    rw [BitVec.toInt_ofInt]
    exact Int.bmod_eq_of_le (by omega) (by omega)
  have h64 : (BitVec.ofInt 64 d).toInt = d := by
    rw [BitVec.toInt_ofInt]
    exact Int.bmod_eq_of_le (by omega) (by omega)
  apply UInt64.toBitVec_inj.mp
  rw [toBitVec_ofInt]
  show (BitVec.ofInt 32 d).signExtend 64 = BitVec.ofInt 64 d
  apply BitVec.eq_of_toInt_eq
  rw [BitVec.toInt_signExtend_of_le (by decide), h32, h64]

theorem word_displacement (hn : n < 2 ^ 31) : (displacement n).toInt64.toUInt64 = n.toUInt64 := by
  rw [displacement, word_ofInt (by omega) (by omega), UInt64.ofInt, Nat.toUInt64_eq]
  congr 1
  omega

section Steps

variable {c : Cpu}

theorem step_exec (hcode : CodeAt c.memory c.rip (i :: code)) (hreg : i.Regular)
    (hi : i.exec c.toState = .ok s') : c.step = .ok ⟨s', c.rip + i.length.toUInt64⟩ := by
  have hcut : i.cut.exec c.toState = .ok s' := by rw [Machine.Instr.exec_cut, hi]
  rw [Cpu.step, hcode.decode hreg]
  cases i with
  | jmp | jcc | call | ret | ud2 => cases hi
  | _ =>
    simp only [Machine.Instr.cut] at hcut ⊢
    rw [hcut]
    rfl

theorem step_jmp {rel : Int32} (hcode : CodeAt c.memory c.rip (.jmp rel :: code)) :
    c.step = .ok (c.jump (c.rip + (Machine.Instr.jmp rel).length.toUInt64) rel) := by
  rw [Cpu.step, hcode.decode ⟨trivial, rfl⟩]
  rfl

theorem step_jcc {cond : Cond} {rel : Int32} {b : Bool}
    (hcode : CodeAt c.memory c.rip (.jcc cond rel :: code))
    (hcond : (Machine.Instr.jcc cond rel).Regular) (hb : c.holds cond = .ok b) :
    c.step = .ok (if b then c.jump (c.rip + (Machine.Instr.jcc cond rel).length.toUInt64) rel
      else { c with rip := c.rip + (Machine.Instr.jcc cond rel).length.toUInt64 }) := by
  rw [Cpu.step, hcode.decode hcond]
  simp only [Machine.Instr.cut, hb]
  rfl

theorem step_ret (hcode : CodeAt c.memory c.rip (.ret :: code)) :
    c.step = .ok ⟨c.pop.2, c.pop.1⟩ := by
  rw [Cpu.step, hcode.decode ⟨trivial, rfl⟩]
  rfl

theorem step_ud2 (hcode : CodeAt c.memory c.rip (.ud2 :: code)) :
    c.step = .error .invalidOpcode := by
  rw [Cpu.step, hcode.decode ⟨trivial, rfl⟩]
  rfl

end Steps

theorem run_add (n k : Nat) (c : Cpu) : Cpu.run (n + k) c = Cpu.run n c >>= Cpu.run k := by
  induction n generalizing c with
  | zero => rw [Nat.zero_add]; rfl
  | succ n ih =>
    rw [Nat.succ_add, Cpu.run, Cpu.run, bind_assoc]
    congr 1
    funext c'
    exact ih c'

theorem run_trans {k : Nat} {c c' c'' : Cpu} (h : Cpu.run n c = .ok c')
    (h' : Cpu.run k c' = .ok c'') : Cpu.run (n + k) c = .ok c'' := by
  rw [run_add, h]
  exact h'

theorem run_of_step {c c' c'' : Cpu} (h : c.step = .ok c') (h' : Cpu.run n c' = .ok c'') :
    Cpu.run (n + 1) c = .ok c'' := by
  rw [Cpu.run, h]
  exact h'

/-- A piece of code that jumps can cross, in the memory of a state from `entry` on. -/
structure Loaded (whole : Code) (entry : UInt64) (s : State) : Prop where
  short : codeLength whole < 2 ^ 31
  regular : ∀ i ∈ whole, i.Regular
  code : CodeAt s.memory entry whole

/-- Nothing has been written to the code. -/
def Spares (whole : Code) (entry : UInt64) (s : State) : Prop :=
  ∀ e ∈ s.log, e.isWrite = true → Disjoint e.span (span entry (codeLength whole))

/-- Nothing was written to `text` on the way from `s` to `s'`. -/
def Untouched (text : Set UInt64) (s s' : State) : Prop :=
  ∃ l, s'.log = s.log ++ l ∧ ∀ e ∈ l, e.isWrite = true → Disjoint e.span text

/-- The address of `code`, which is what is left of the whole from there on. -/
def Stands (whole : Code) (entry : UInt64) (code : Code) (a : UInt64) : Prop :=
  ∃ front, whole = front ++ code ∧ a = entry + (codeLength front).toUInt64

section Loaded

variable {whole : Code} {entry : UInt64} {text : Set UInt64}

theorem Untouched.memory (h : Untouched text s s') (hlogs : s.Logs s') :
    ∀ a ∈ text, s'.memory a = s.memory a := by
  obtain ⟨l, hl, hout⟩ := h
  obtain ⟨l', hl', hmemory⟩ := hlogs
  obtain rfl := append_cancel_left (hl.symm.trans hl')
  exact fun a ha => hmemory a fun e he hwrite hin =>
    Set.disjoint_left.mp (hout e he hwrite) hin ha

theorem Untouched.split (h : Untouched text s s'') (hlogs : s.Logs s') (hlogs' : s'.Logs s'') :
    Untouched text s s' ∧ Untouched text s' s'' := by
  obtain ⟨l, hl, hout⟩ := h
  obtain ⟨l₁, hl₁, -⟩ := hlogs
  obtain ⟨l₂, hl₂, -⟩ := hlogs'
  rw [hl₂, hl₁, append_assoc] at hl
  obtain rfl := append_cancel_left hl
  exact ⟨⟨l₁, hl₁, fun e he => hout e (mem_append_left _ he)⟩,
    ⟨l₂, hl₂, fun e he => hout e (mem_append_right _ he)⟩⟩

theorem Loaded.congr (hload : Loaded whole entry s)
    (htext : ∀ a ∈ span entry (codeLength whole), s'.memory a = s.memory a) :
    Loaded whole entry s' := by
  refine ⟨hload.short, hload.regular, ?_⟩
  have hcode := hload.code
  unfold CodeAt at hcode ⊢
  rw [← hcode]
  exact Memory.range_congr fun j hj => htext _ (mem_span_add hj)

theorem Spares.untouched (h : Spares whole entry s') (hlogs : s.Logs s') :
    Untouched (span entry (codeLength whole)) s s' := by
  obtain ⟨l, hl, -⟩ := hlogs
  exact ⟨l, hl, fun e he => h e (by rw [hl]; exact mem_append_right _ he)⟩

theorem Spares.of_logs (h : Spares whole entry s') (hlogs : s.Logs s') : Spares whole entry s := by
  obtain ⟨l, hl, -⟩ := hlogs
  intro e he
  exact h e (by rw [hl]; exact mem_append_left l he)

theorem Loaded.of_logs (h : Loaded whole entry s) (hlogs : s.Logs s')
    (hspares : Spares whole entry s') : Loaded whole entry s' :=
  h.congr ((hspares.untouched hlogs).memory hlogs)

theorem toUInt64_add (n k : Nat) : (n + k).toUInt64 = n.toUInt64 + k.toUInt64 :=
  UInt64.ofNat_add n k

theorem Stands.skip (h : Stands whole entry (skipped ++ code) a) :
    Stands whole entry code (a + (codeLength skipped).toUInt64) := by
  obtain ⟨front, rfl, rfl⟩ := h
  refine ⟨front ++ skipped, (append_assoc ..).symm, ?_⟩
  rw [codeLength_append, toUInt64_add, UInt64.add_assoc]

theorem Stands.codeAt (h : Stands whole entry code a) (hload : Loaded whole entry s) :
    CodeAt s.memory a code := by
  obtain ⟨front, rfl, rfl⟩ := h
  exact (codeAt_append.mp hload.code).2

theorem Stands.regular (h : Stands whole entry code a) (hload : Loaded whole entry s)
    (hi : i ∈ code) : i.Regular := by
  obtain ⟨front, rfl, rfl⟩ := h
  exact hload.regular i (mem_append_right _ hi)

theorem Stands.short (h : Stands whole entry code a) (hload : Loaded whole entry s) :
    codeLength code < 2 ^ 31 := by
  obtain ⟨front, rfl, rfl⟩ := h
  have := hload.short
  rw [codeLength_append] at this
  omega

theorem Stands.tail (h : Stands whole entry (i :: code) a)
    : Stands whole entry code (a + i.length.toUInt64) := by
  have h' : Stands whole entry ([i] ++ code) a := h
  simpa using h'.skip

/-- A jump over some instructions goes to what stands behind them. -/
theorem Stands.over (hload : Loaded whole entry s)
    (h : Stands whole entry (i :: (skipped ++ code)) a) :
    Stands whole entry code
      (a + i.length.toUInt64 + (displacement (codeLength skipped)).toInt64.toUInt64) := by
  have hshort := h.short hload
  rw [codeLength_cons, codeLength_append] at hshort
  rw [word_displacement (by omega)]
  exact h.tail.skip

theorem exists_run {E : Cpu → Prop} {c c' : Cpu} (hstep : c.step = .ok c')
    (h : ∃ n b, Stands whole entry rest b ∧ Cpu.run n c' = .ok ⟨s', b⟩ ∧ E ⟨s', b⟩) :
    ∃ n b, Stands whole entry rest b ∧ Cpu.run n c = .ok ⟨s', b⟩ ∧ E ⟨s', b⟩ := by
  obtain ⟨n, b, hb, hrun, hs'⟩ := h
  exact ⟨n + 1, b, hb, run_of_step hstep hrun, hs'⟩

/-- A processor does what the code does that it stands at, and keeps what the steps keep that are
neither calls nor returns. -/
theorem Runs.steps_keep {E : Cpu → Prop} (hE : ∀ {c c' i code}, E c →
      CodeAt c.memory c.rip (i :: code) → i.Regular → i ≠ .ret → (∀ r, i ≠ .call r) →
      c.step = .ok c' → (∀ a ∈ text, c'.memory a = c.memory a) → E c')
    (h : Runs code s rest s') (hs : E ⟨s, a⟩) (hload : Loaded whole entry s)
    (hin : span entry (codeLength whole) ⊆ text) (huntouched : Untouched text s s')
    (hat : Stands whole entry code a) :
    ∃ n b, Stands whole entry rest b ∧ Cpu.run n ⟨s, a⟩ = .ok ⟨s', b⟩ ∧ E ⟨s', b⟩ := by
  induction h generalizing a with
  | refl => exact ⟨0, a, hat, rfl, hs⟩
  | @instr i code rest s s₁ s' hi h ih =>
    obtain ⟨hfirst, hrest⟩ := huntouched.split (Machine.Instr.logs_exec hi) h.logs
    have htext := hfirst.memory (Machine.Instr.logs_exec hi)
    have hreg := hat.regular hload mem_cons_self
    have hstep := step_exec (c := ⟨s, a⟩) (hat.codeAt hload) hreg hi
    refine exists_run hstep (ih (hE hs (hat.codeAt hload) hreg ?_ ?_ hstep htext)
      (hload.congr fun a ha => htext a (hin ha)) hrest hat.tail)
    · rintro rfl
      cases hi
    · rintro r rfl
      cases hi
  | @jmp skipped code rest s s' _ ih =>
    have hreg := hat.regular hload mem_cons_self
    have hstep := step_jmp (c := ⟨s, a⟩) (hat.codeAt hload)
    exact exists_run hstep (ih (hE hs (hat.codeAt hload) hreg (by simp) (by simp) hstep fun _ _ => rfl)
      hload huntouched (hat.over hload))
  | @taken c skipped code rest s s' hc _ ih =>
    have hreg := hat.regular hload mem_cons_self
    have hstep := step_jcc (c := ⟨s, a⟩) (hat.codeAt hload) hreg hc
    exact exists_run hstep (ih (hE hs (hat.codeAt hload) hreg (by simp) (by simp) hstep fun _ _ => rfl)
      hload huntouched (hat.over hload))
  | @passed c rel code rest s s' hc _ ih =>
    have hreg := hat.regular hload mem_cons_self
    have hstep := step_jcc (c := ⟨s, a⟩) (hat.codeAt hload) hreg hc
    exact exists_run hstep (ih (hE hs (hat.codeAt hload) hreg (by simp) (by simp) hstep fun _ _ => rfl)
      hload huntouched hat.tail)

theorem Runs.steps (h : Runs code s rest s') (hload : Loaded whole entry s)
    (hspares : Spares whole entry s') (hat : Stands whole entry code a) :
    ∃ n b, Stands whole entry rest b ∧ Cpu.run n ⟨s, a⟩ = .ok ⟨s', b⟩ := by
  obtain ⟨n, b, hb, hrun, -⟩ := h.steps_keep (E := fun _ => True) (fun _ _ _ _ _ _ _ => trivial)
    trivial hload subset_rfl (hspares.untouched h.logs) hat
  exact ⟨n, b, hb, hrun⟩

end Loaded

end Native

end Dynarec
