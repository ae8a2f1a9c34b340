import Dynarec.Proofs.Native.Arrivals
import Dynarec.Proofs.Native.CallSequence

/-!
# How deep the stack is

A sweep over code keeps track of the stack pointer and the frame pointer, as distances from the stack
pointer at the entry. Only pushes, pops and additions of constants move the stack pointer, and a call
gives it back as it was. Wherever control can enter or leave a stretch of code, at the jumps and the
labels of a listing, the two have the same distances: those that the prologue leaves.
-/
namespace Dynarec

namespace Native

open Machine CallPlan

variable {h : Homes} {rs : List Reg} {d : UInt64} {code : Code}

/-- The instruction moves neither the stack pointer nor the frame pointer. -/
def Steady (i : Machine.Instr) : Prop :=
  ∀ r ∈ i.writes, r ≠ .rsp ∧ r ≠ .rbp

theorem steady_of_writes_nil {i : Machine.Instr} (hi : i.writes = []) : Steady i := by
  simp [Steady, hi]

/-- Neither of them is a scratch register or a home. -/
theorem Tame.steady {i : Machine.Instr} (hi : Tame h i)
    (hpool : ∀ {id r}, h.get id = .reg r → r ∈ pool) : Steady i := by
  have hscratch : ∀ r ∈ scratch, r ≠ .rsp ∧ r ≠ .rbp := by decide
  intro r hr
  rcases hi.2 r hr with hr | ⟨id, hid⟩
  · exact hscratch r hr
  · exact (ne_of_mem_pool (hpool hid)).2

/-- How far the stack pointer and the frame pointer are from the stack pointer at the entry, as far
as that is known. -/
structure Level where
  rsp : Option UInt64
  rbp : Option UInt64

namespace Level

/-- The registers may have changed. -/
def forget (L : Level) (rs : List Reg) : Level :=
  ⟨if .rsp ∈ rs then none else L.rsp, if .rbp ∈ rs then none else L.rbp⟩

/-- The level behind an instruction. A call that comes back leaves both registers as they were. -/
def track (L : Level) : Machine.Instr → Level
  | .push _ => { L with rsp := L.rsp.map (· - 8) }
  | .pop r => forget { L with rsp := L.rsp.map (· + 8) } [r]
  | .movTo .qword (.reg .rbp) .rsp => { L with rbp := L.rsp }
  | .aluImm .sub .qword (.reg .rsp) x => { L with rsp := L.rsp.map (· - x.toInt64.toUInt64) }
  | .aluImm .add .qword (.reg .rsp) x => { L with rsp := L.rsp.map (· + x.toInt64.toUInt64) }
  | .call _ => L
  | i => L.forget i.writes

/-- The level behind some code. -/
def after (L : Level) (code : Code) : Level :=
  code.foldl track L

/-- The registers are where the level says, in a function that was entered with stack pointer `sp`. -/
structure Describes (L : Level) (sp : UInt64) (s : State) : Prop where
  rsp : ∀ d, L.rsp = some d → s.regs .rsp = sp + d
  rbp : ∀ d, L.rbp = some d → s.regs .rbp = sp + d

/-- Nothing but the stack pointer is known at the entry. -/
def entry : Level := ⟨some 0, none⟩

/-- The level of the blocks of a function with a frame of `n` bytes. -/
def body (n : Nat) : Level := ⟨some (0 - 48 - n.toUInt64), some (0 - 8)⟩

variable {L : Level} {sp : UInt64} {s s' : State} {i : Machine.Instr}

@[simp] theorem after_nil (L : Level) : L.after [] = L := rfl

@[simp] theorem after_cons (L : Level) (i : Machine.Instr) (code : Code) :
    L.after (i :: code) = (L.track i).after code := rfl

@[simp] theorem after_append (L : Level) (code code' : Code) :
    L.after (code ++ code') = (L.after code).after code' :=
  List.foldl_append

theorem Describes.forget (hL : L.Describes sp s) (hregs : ∀ r ∉ rs, s'.regs r = s.regs r) :
    (L.forget rs).Describes sp s' := by
  constructor
  · intro d hd
    by_cases hin : Reg.rsp ∈ rs
    · simp [Level.forget, hin] at hd
    · rw [hregs _ hin]
      exact hL.rsp d (by simpa [Level.forget, hin] using hd)
  · intro d hd
    by_cases hin : Reg.rbp ∈ rs
    · simp [Level.forget, hin] at hd
    · rw [hregs _ hin]
      exact hL.rbp d (by simpa [Level.forget, hin] using hd)

theorem Describes.move (hL : L.Describes sp s) (f : UInt64 → UInt64)
    (hf : ∀ d, f (sp + d) = sp + f d) (hrsp : s'.regs .rsp = f (s.regs .rsp))
    (hrbp : s'.regs .rbp = s.regs .rbp) :
    Describes { L with rsp := L.rsp.map f } sp s' := by
  refine ⟨fun d hd => ?_, fun d hd => hrbp.trans (hL.rbp d hd)⟩
  obtain ⟨d', hd', rfl⟩ := Option.map_eq_some_iff.mp hd
  rw [hrsp, hL.rsp d' hd', hf]

/-- The levels are those of the machine. -/
theorem Describes.exec (hL : L.Describes sp s) (hi : i.exec s = .ok s') :
    (L.track i).Describes sp s' := by
  unfold track
  split
  · cases hi
    exact hL.move (· - 8) (fun d => by grind) rfl rfl
  · rename_i r
    cases hi
    have hpop : Describes { L with rsp := L.rsp.map (· + 8) } sp s.pop.2 :=
      hL.move (· + 8) (fun d => by grind) rfl rfl
    exact hpop.forget fun q hq => State.regs_setReg _ _ hq
  · cases hi
    have hmove : (s.set .qword (s.low .qword .rsp) (.reg .rbp)) = s.setReg .rbp (s.regs .rsp) := by
      show s.setReg .rbp ⟨(s.regs .rsp).toBitVec.setWidth 64⟩ = _
      rw [BitVec.setWidth_eq]
    rw [hmove]
    exact ⟨hL.rsp, hL.rsp⟩
  · rename_i x
    cases hi
    refine hL.move (· - x.toInt64.toUInt64) (fun d => by grind) ?_ rfl
    show (⟨(s.regs .rsp).toBitVec.setWidth 64 - x.toBitVec.signExtend 64⟩ : UInt64) = _
    rw [BitVec.setWidth_eq]
    rfl
  · rename_i x
    cases hi
    refine hL.move (· + x.toInt64.toUInt64) (fun d => by grind) ?_ rfl
    show (⟨(s.regs .rsp).toBitVec.setWidth 64 + x.toBitVec.signExtend 64⟩ : UInt64) = _
    rw [BitVec.setWidth_eq]
    rfl
  · cases hi
  · exact hL.forget fun r hr => Machine.Instr.regs_exec hi hr

theorem track_of_steady (L : Level) (hi : Steady i) : L.track i = L := by
  have hrsp : Reg.rsp ∉ i.writes := fun h => (hi _ h).1 rfl
  have hrbp : Reg.rbp ∉ i.writes := fun h => (hi _ h).2 rfl
  unfold track
  split
  all_goals simp_all [forget, Machine.Instr.writes, Operand.written]

end Level

section Calls

variable {L : Level} {i : Dynarec.Instr}

theorem Level.after_steady (L : Level) (hcode : All Steady code) : L.after code = L := by
  induction code with
  | nil => rfl
  | cons i code ih =>
    obtain ⟨hi, hrest⟩ := all_cons.mp hcode
    rw [after_cons, track_of_steady L hi, ih hrest]

/-- The stack pointer is at distance `d`. -/
def Level.at (L : Level) (d : UInt64) : Level :=
  { L with rsp := some d }

theorem sub_words (d : UInt64) (n : Nat) :
    d - 8 - (8 * n).toUInt64 = d - (8 * (n + 1)).toUInt64 := by
  rw [Nat.mul_succ, toUInt64_add, show Nat.toUInt64 8 = 8 from rfl]
  grind

theorem CallPlan.pad_eq (P : CallPlan) : P.pad = 0 ∨ P.pad = 8 := by
  unfold pad
  split_ifs
  · exact Or.inr rfl
  · exact Or.inl rfl

namespace Level

variable (L : Level) (d : UInt64)

@[simp] theorem track_push (r : Reg) :
    (L.at d).track (.push r) = L.at (d - 8) := rfl

theorem track_pop {r : Reg} (hrsp : r ≠ .rsp) (hrbp : r ≠ .rbp) :
    (L.at d).track (.pop r) = L.at (d + 8) := by
  simp [track, forget, Level.at, hrsp.symm, hrbp.symm]

theorem after_pushes (rs : List Reg) :
    (L.at d).after (rs.map .push) = L.at (d - (8 * rs.length).toUInt64) := by
  induction rs generalizing d with
  | nil => simp
  | cons r rs ih =>
    rw [List.map_cons, after_cons, track_push, ih, List.length_cons, sub_words]

theorem after_pops (hrs : ∀ r ∈ rs, r ≠ .rsp ∧ r ≠ .rbp) :
    (L.at d).after (rs.map .pop) = L.at (d + (8 * rs.length).toUInt64) := by
  induction rs generalizing d with
  | nil => simp
  | cons r rs ih =>
    rw [List.forall_mem_cons] at hrs
    rw [List.map_cons, after_cons, track_pop L d hrs.1.1 hrs.1.2, ih _ hrs.2, List.length_cons,
      add_words]

theorem after_pushAll {vs : List Value}
    (hpool : ∀ {id r}, h.get id = .reg r → r ∈ pool) (hcode : Select.pushAll h vs = .ok code) :
    (L.at d).after code = L.at (d - (8 * vs.length).toUInt64) := by
  induction vs generalizing d code with
  | nil =>
    cases hcode
    simp
  | cons v vs ih =>
    obtain ⟨load, rest, hload, hrest, ⟨⟩⟩ := Except.bind₂_eq_ok.mp hcode
    have hsteady : All Steady load :=
      (tame_load (by decide) hload).imp fun _ hi => hi.steady hpool
    rw [after_append, after_append, after_steady _ hsteady, after_cons, after_nil, track_push,
      ih _ hrest, List.length_cons, sub_words]

theorem after_sub (n : Nat) (hn : n = 0 ∨ n = 8) :
    (L.at d).after (if n ≠ 0 then [.aluImm .sub .qword (.reg .rsp) 8] else []) =
      L.at (d - n.toUInt64) := by
  rcases hn with rfl | rfl
  · simp
  · rfl

theorem after_add {n : Nat} (hn : n < 2 ^ 31) :
    (L.at d).after (if n ≠ 0 then [.aluImm .add .qword (.reg .rsp) (displacement n)] else []) =
      L.at (d + n.toUInt64) := by
  split_ifs with hzero
  · have htrack : (L.at d).after [.aluImm .add .qword (.reg .rsp) (displacement n)] =
        L.at (d + (displacement n).toInt64.toUInt64) := rfl
    rw [htrack, word_displacement hn]
  · rw [show n = 0 by simpa using hzero]
    simp

theorem after_call {k : Nat} {entry : UInt64} {params : List Value}
    (hpool : ∀ {id r}, h.get id = .reg r → r ∈ pool) (hsaved : ∀ r ∈ h.liveAcross k, r ∈ pool)
    (hdrop : (ofCall h k params).drop < 2 ^ 31)
    (hcode : Select.call h i k entry params = .ok code) : (L.at d).after code = L.at d := by
  obtain ⟨stackArgs, regArgs, result, hstack, hregs, hresult, rfl⟩ := call_ok hcode
  have hresult' : All Steady result := by
    cases hresult with
    | none => exact all_nil
    | result _ hback =>
      refine All.imp (P := Tame h) (all_append.mpr ⟨?_, tame_store hback⟩) fun _ hi => hi.steady hpool
      exact tame_mask _ (by decide)
  have harguments : ∀ r ∈ Reg.arguments, r ≠ .rsp ∧ r ≠ .rbp := by decide
  have hsaved' : ∀ r ∈ (h.liveAcross k).reverse, r ≠ .rsp ∧ r ≠ .rbp := fun r hr =>
    (ne_of_mem_pool (hsaved r (List.mem_reverse.mp hr))).2
  generalize hP : ofCall h k params = P at hstack hregs hdrop ⊢
  have hsaved : P.saved = h.liveAcross k := by rw [← hP]; rfl
  have hfew : (Reg.arguments.take P.inRegs.length).reverse.length = P.inRegs.length := by
    rw [← hP]
    simp [ofCall]
  have htarget : Tame h (.loadImm .rax entry) := tame_loadImm (by decide) entry
  have hcall (d : UInt64) : (L.at d).track (.call .rax) = L.at d := rfl
  simp only [before, behind, after_append, after_cons, after_nil]
  rw [after_pushes, after_sub _ _ _ P.pad_eq, after_pushAll _ _ hpool hstack,
    after_pushAll _ _ hpool hregs,
    after_pops _ _ fun r hr => harguments r (List.mem_of_mem_take (List.mem_reverse.mp hr)),
    track_of_steady _ (htarget.steady hpool), hcall, after_add _ _ hdrop, hsaved,
    after_pops _ _ hsaved', after_steady _ hresult', hfew, List.length_reverse, List.length_reverse,
    drop, toUInt64_add]
  congr 1
  grind

end Level

end Calls

section Listing

variable {B L : Level} {ls ls' : List Line}

/-- The level behind a line. -/
def Level.pass (L : Level) : Line → Level
  | .plain i => L.track i
  | .jump _ _ | .label _ => L

def Level.sweep (L : Level) (ls : List Line) : Level :=
  ls.foldl pass L

/-- A sweep that starts at level `L` finds level `B` at every jump and every label. -/
def Level.Marks (B : Level) : Level → List Line → Prop
  | _, [] => True
  | L, .plain i :: ls => Marks B (L.track i) ls
  | L, .jump _ _ :: ls => L = B ∧ Marks B L ls
  | L, .label _ :: ls => L = B ∧ Marks B L ls

/-- Lines that control enters and leaves at level `B`. -/
structure Flat (B : Level) (ls : List Line) : Prop where
  ends : B.sweep ls = B
  marks : B.Marks B ls

namespace Level

@[simp] theorem sweep_nil (L : Level) : L.sweep [] = L := rfl

@[simp] theorem sweep_cons (L : Level) (ln : Line) (ls : List Line) :
    L.sweep (ln :: ls) = (L.pass ln).sweep ls := rfl

@[simp] theorem sweep_append (L : Level) (ls ls' : List Line) :
    L.sweep (ls ++ ls') = (L.sweep ls).sweep ls' :=
  List.foldl_append

@[simp] theorem sweep_plain (L : Level) (code : Code) :
    L.sweep (code.map .plain) = L.after code := by
  induction code generalizing L with
  | nil => rfl
  | cons i code ih => exact ih _

theorem after_of_fills (hcode : Fills ls code) : L.after code = L.sweep ls := by
  induction hcode generalizing L with
  | nil => rfl
  | @cons ln ls code rel _ ih =>
    rw [after_append, ih, sweep_cons]
    cases ln with
    | plain i => rfl
    | label l => rfl
    | jump c l =>
      have hjump : All Steady ((Line.jump c l).code rel) := by
        cases c <;> exact all_singleton.mpr (steady_of_writes_nil rfl)
      rw [after_steady _ hjump]
      rfl

theorem marks_append : B.Marks L (ls ++ ls') ↔ B.Marks L ls ∧ B.Marks (L.sweep ls) ls' := by
  induction ls generalizing L with
  | nil => simp [Marks]
  | cons ln ls ih =>
    cases ln with
    | plain i => exact ih
    | jump c l | label l => simp only [List.cons_append, Marks, ih, and_assoc, sweep_cons, pass]

theorem marks_plain (B L : Level) (code : Code) : B.Marks L (code.map .plain) := by
  induction code generalizing L with
  | nil => trivial
  | cons i code ih => exact ih _

theorem Marks.jump {ahead behind : List Line} {c : Option Cond} {l : Label}
    (hmarks : B.Marks L (ahead ++ .jump c l :: behind)) : L.sweep ahead = B :=
  (marks_append.mp hmarks).2.1

theorem Marks.label {ahead behind : List Line} {l : Label}
    (hmarks : B.Marks L (ahead ++ .label l :: behind)) : L.sweep ahead = B :=
  (marks_append.mp hmarks).2.1

end Level

theorem Flat.append (hls : Flat B ls) (hls' : Flat B ls') : Flat B (ls ++ ls') := by
  refine ⟨by rw [Level.sweep_append, hls.ends, hls'.ends], Level.marks_append.mpr ⟨hls.marks, ?_⟩⟩
  rw [hls.ends]
  exact hls'.marks

theorem flat_plain (hcode : B.after code = B) : Flat B (code.map .plain) :=
  ⟨by rw [Level.sweep_plain, hcode], B.marks_plain B code⟩

theorem flat_of_steady (hls : ∀ ln ∈ ls, ln.Meets Steady fun _ _ => True) : Flat B ls := by
  induction ls with
  | nil => exact ⟨rfl, trivial⟩
  | cons ln ls ih =>
    rw [List.forall_mem_cons] at hls
    obtain ⟨hends, hmarks⟩ := ih hls.2
    cases ln with
    | plain i =>
      have htrack := B.track_of_steady hls.1
      refine ⟨?_, ?_⟩
      · rw [Level.sweep_cons, Level.pass, htrack, hends]
      · rw [Level.Marks, htrack]
        exact hmarks
    | jump c l | label l => exact ⟨hends, rfl, hmarks⟩

variable {w : Workspace} {g : Graph} {next : Option Nat} {p : Place} {i : Dynarec.Instr}
  {u v : Value} {op : BinOp} {size : Size}

theorem Level.after_prologue {n : Nat} (hn : n < 2 ^ 31) :
    entry.after (prologue n) = body n := by
  have henter : entry.after [.push .rbp, .movTo .qword (.reg .rbp) .rsp] =
      (body n).at (0 - 8) := rfl
  have hsub (d : UInt64) : ((body n).at d).after
      [.aluImm .sub .qword (.reg .rsp) (displacement n)] =
      (body n).at (d - (displacement n).toInt64.toUInt64) := rfl
  have hsaved : (0 - 8 - (8 * Reg.saved.length).toUInt64 : UInt64) = 0 - 48 := by decide
  rw [prologue, after_append, after_append, henter, after_pushes, hsub, word_displacement hn, hsaved]
  rfl

section Homes

variable (hpool : ∀ {id r}, h.get id = .reg r → r ∈ pool)
include hpool

/-- The lines of an instruction start and end at the level of the blocks. -/
theorem flat_instr (hsaved : ∀ r ∈ h.liveAcross (index g p), r ∈ pool)
    (hdrop : ∀ {target params}, i.op = .call target params →
      (ofCall h (index g p) params).drop < 2 ^ 31)
    (hls : Labelled.instr w g h next p i = .ok ls) : Flat (B.at d) ls := by
  by_cases hcall : ∃ target params, i.op = .call target params
  · obtain ⟨target, params, hop⟩ := hcall
    obtain ⟨code, hcode, rfl⟩ := instr_call hop hls
    simp only [Select.code, hop] at hcode
    exact flat_plain (B.after_call d hpool hsaved (hdrop hop) hcode)
  · refine flat_of_steady fun ln hln => ?_
    exact (meets_instr (fun target params hop => hcall ⟨target, params, hop⟩) hls ln hln).imp
      (fun _ hi => hi.steady hpool) fun _ _ _ => trivial

variable (hsaved : ∀ {k}, ∀ r ∈ h.liveAcross k, r ∈ pool)
  (hdrop : ∀ {p i target params}, g.instrAt? p = some i → i.op = .call target params →
    (CallPlan.ofCall h (index g p) params).drop < 2 ^ 31)
include hsaved hdrop

theorem flat_instrs {is : List Dynarec.Instr}
    (his : ∀ (n : Nat) i, is[n]? = some i → g.instrAt? ⟨p.label, p.offset + n⟩ = some i)
    (hls : Labelled.instrs w g h next p is = .ok ls) : Flat (B.at d) ls := by
  induction is generalizing p ls with
  | nil =>
    cases hls
    exact flat_of_steady (by simp)
  | cons i rest ih =>
    obtain ⟨first, back, hfirst, hback, ⟨⟩⟩ := Except.bind₂_eq_ok.mp hls
    refine (flat_instr hpool hsaved (fun hop => hdrop (his 0 i rfl) hop) hfirst).append
      (ih (p := p.succ) (fun n j hj => ?_) hback)
    rw [Place.succ, Nat.add_assoc, Nat.add_comm 1]
    exact his (n + 1) j hj

theorem flat_blocks {order : List Nat} (hinside : ∀ k ∈ order, k < g.blocks.size)
    (hls : Labelled.blocks w g h order = .ok ls) : Flat (B.at d) ls := by
  induction order generalizing ls with
  | nil =>
    cases hls
    exact flat_of_steady (by simp)
  | cons k order ih =>
    rw [List.forall_mem_cons] at hinside
    obtain ⟨first, back, hfirst, hback, ⟨⟩⟩ := Except.bind₂_eq_ok.mp hls
    have hlabel : Flat (B.at d) [.label (.block k)] := flat_of_steady (by simp [Line.Meets])
    refine (hlabel.append (flat_instrs hpool hsaved hdrop (fun n i hi => ?_) hfirst)).append
      (ih hinside.2 hback)
    have hk := Array.getElem?_eq_getElem hinside.1
    rw [hk] at hi
    exact Graph.instrAt?_eq_some.mpr ⟨_, hk, by simpa using hi⟩

/-- Wherever a function jumps, and wherever it can be jumped to, it is at the level of its blocks. -/
theorem marks_function (hframe : h.frameSize < 2 ^ 31) {order : List Nat}
    (hinside : ∀ k ∈ order, k < g.blocks.size)
    (hls : Labelled.function w g h order = .ok ls) :
    (Level.body h.frameSize).Marks .entry ls := by
  obtain ⟨body, hbody, ⟨⟩⟩ := Except.bind_eq_ok.mp hls
  have hflat : Flat (Level.body h.frameSize) body :=
    flat_blocks (B := Level.body h.frameSize) hpool hsaved hdrop hinside hbody
  rw [Labelled.enclose, Level.marks_append, Level.marks_append, Level.sweep_append,
    Level.sweep_plain, Level.after_prologue hframe, hflat.ends]
  exact ⟨⟨Level.marks_plain _ _ _, hflat.marks⟩, rfl, Level.marks_plain _ _ _⟩

end Homes

end Listing

end Native

end Dynarec
