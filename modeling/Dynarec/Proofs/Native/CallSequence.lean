import Dynarec.Proofs.Native.LiveRanges
import Dynarec.Proofs.Native.Scalar
import Dynarec.Proofs.Native.Stack

/-!
# The code of a call

In front of a call the live registers are saved, the stack is padded, and the arguments are pushed;
those that belong in registers are popped there. Behind it the stack pointer goes back over the
arguments, the live registers are loaded again, and the result is cut to its type and moved to its
home. All the pushes go below the frame, so the homes keep what they have.
-/
namespace Dynarec.Native

open Machine Select Function List

variable {h : Homes} {i : Dynarec.Instr} {x entry bottom : UInt64} {r : Reg} {S : Set UInt64}
  {room : Nat} {s s' : State} {vs : List Value}

/-- The registers that a call saves, and how it passes its arguments. -/
structure CallPlan where
  saved : List Reg
  inRegs : List Value
  onStack : List Value

namespace CallPlan

/-- The plan of the call at instruction `k`. -/
def ofCall (h : Homes) (k : Nat) (params : List Value) : CallPlan :=
  ⟨h.liveAcross k, params.take Reg.arguments.length, params.drop Reg.arguments.length⟩

variable (P : CallPlan)

def pad : Nat :=
  if (P.saved.length + P.onStack.length) % 2 ≠ 0 then 8 else 0

/-- The bytes between the saved registers and the end of the arguments. -/
def drop : Nat :=
  8 * P.onStack.length + P.pad

def before (entry : UInt64) (stackArgs regArgs : Code) : Code :=
  P.saved.map .push ++ (if P.pad ≠ 0 then [.aluImm .sub .qword (.reg .rsp) 8] else []) ++
    stackArgs ++ regArgs ++ (Reg.arguments.take P.inRegs.length).reverse.map .pop ++
    [.loadImm .rax entry]

def behind (result : Code) : Code :=
  (if P.drop ≠ 0 then [.aluImm .add .qword (.reg .rsp) (displacement P.drop)] else []) ++
    P.saved.reverse.map .pop ++ result

end CallPlan

/-- What becomes of the result of a call. -/
inductive Fetches (h : Homes) (i : Dynarec.Instr) : Code → Prop
  | none (hno : i.hasResult = false) : Fetches h i []
  | result {back} (hyes : i.hasResult = true) (hback : store h i .rax = .ok back) : Fetches h
      i (mask i.ty .rax ++ back)

theorem call_ok {k : Nat} {params : List Value} {code : Code}
    (hcode : call h i k entry params = .ok code) :
    ∃ stackArgs regArgs result,
      pushAll h (CallPlan.ofCall h k params).onStack.reverse = .ok stackArgs ∧
      pushAll h (CallPlan.ofCall h k params).inRegs = .ok regArgs ∧ Fetches h i result ∧
      code = (CallPlan.ofCall h k params).before entry stackArgs regArgs ++
        .call .rax :: (CallPlan.ofCall h k params).behind result := by
  obtain ⟨stackArgs, regArgs, hstack, hregs, hcode⟩ := Except.bind₂_eq_ok.mp hcode
  cases hyes : i.hasResult with
  | true =>
    rw [hyes, if_pos rfl] at hcode
    obtain ⟨back, hback, ⟨⟩⟩ := Except.bind_eq_ok.mp hcode
    refine ⟨stackArgs, regArgs, _, hstack, hregs, .result hyes hback, ?_⟩
    simp only [CallPlan.before, CallPlan.behind, append_assoc, cons_append,
      nil_append]
    rfl
  | false =>
    rw [hyes, if_neg Bool.false_ne_true] at hcode
    cases hcode
    refine ⟨stackArgs, regArgs, _, hstack, hregs, .none hyes, ?_⟩
    simp only [CallPlan.before, CallPlan.behind, append_assoc, cons_append,
      nil_append]
    rfl

/-- The word that a home has: the whole register, the bytes of the frame and zeros above them, or the
address of the slot. -/
def Home.word (s : State) : Home → UInt64
  | .none => 0
  | .reg r => s.regs r
  | .spill disp n => s.memory.read (s.address (frameMem disp)) n
  | .slot disp _ => s.address (frameMem disp)

def Homes.word (h : Homes) (s : State) : Value → UInt64
  | .const _ x => x
  | .var _ id => (h.get id).word s

section Stack

/-- A stack that can still take `room` bytes from `bottom` on. No home is among them, and all that is
accessed is in `S`. -/
structure Homes.Above (h : Homes) (S : Set UInt64) (bottom : UInt64) (room : Nat) (s : State) :
    Prop where
  framed : h.Framed S s
  rsp : s.regs .rsp = bottom + room.toUInt64
  free : span bottom room ⊆ S
  small : room < 2 ^ 63
  apart : ∀ {id}, Disjoint ((h.get id).span s) (span bottom room)

variable {v : Value} {code : Code}

theorem Home.word_congr {home : Home} (hregs : ∀ r, home = .reg r → s'.regs r = s.regs r)
    (hrbp : s'.regs .rbp = s.regs .rbp) (hmemory : ∀ a ∈ home.span s, s'.memory a = s.memory a) :
    home.word s' = home.word s := by
  cases home with
  | none => rfl
  | reg r => exact hregs r rfl
  | spill disp n =>
    simp only [Home.word]
    rw [address_frameMem_of_eq hrbp]
    exact Memory.read_congr hmemory
  | slot disp n => exact address_frameMem_of_eq hrbp disp

/-- The value has a word of its own. -/
def Homes.Knows (h : Homes) : Value → Prop
  | .const _ _ => True
  | .var _ id => h.get id ≠ .none

theorem runs_load_word (hf : h.Framed S s) {dst : Reg} (hdst : dst ∈ scratch) (hv : h.Knows v)
    (hcode : load h dst v = .ok code) :
    ∃ s', Runs code s [] s' ∧ Loads S dst (h.word s v) s s' := by
  cases v with
  | const t x => exact runs_load hf hdst hcode rfl
  | var t id =>
    cases hhome : h.get id with
    | none => exact absurd hhome hv
    | reg | spill =>
      refine runs_load hf hdst hcode ?_
      simp only [Carries, Homes.word, hhome]
      rfl
    | slot disp n =>
      simp only [load, hhome, Except.ok.injEq] at hcode
      obtain rfl := hcode
      have hlea : (Machine.Instr.lea dst (frameMem disp)).exec s =
          .ok (s.setReg dst (s.address (frameMem disp))) := rfl
      simp only [Homes.word, hhome]
      exact ⟨_, .instr hlea .refl, loads_setReg S s hdst _⟩

theorem Homes.Above.shrink (hs : h.Above S bottom room s) {room' : Nat} (hle : room' ≤ room)
    (hrsp : s'.regs .rsp = bottom + room'.toUInt64) (hrbp : s'.regs .rbp = s.regs .rbp) :
    h.Above S bottom room' s' := by
  have hsub : span bottom room' ⊆ span bottom room := span_subset_of_le hle
  refine ⟨⟨hs.framed.pool, fun hid => ?_⟩, hrsp, hsub.trans hs.free, hle.trans_lt hs.small,
    fun {id} => ?_⟩
  · rw [address_frameMem_of_eq hrbp]
    exact hs.framed.frame hid
  · rw [(h.get id).span_of_eq hrbp]
    exact Set.disjoint_of_subset_right hsub hs.apart

/-- Words stay while only the free part of the stack is written. -/
theorem Homes.Above.word_eq (hs : h.Above S bottom room s)
    (hregs : ∀ r ∈ pool, s'.regs r = s.regs r) (hrbp : s'.regs .rbp = s.regs .rbp)
    (hmemory : ∀ a ∉ span bottom room, s'.memory a = s.memory a) (v : Value) :
    h.word s' v = h.word s v := by
  cases v with
  | const t x => rfl
  | var t id =>
    exact Home.word_congr (fun r hr => hregs r (hs.framed.pool hr)) hrbp fun a ha =>
      hmemory a (Set.disjoint_left.mp hs.apart ha)

/-- Values on the stack, the last one at the bottom. -/
structure Pushed (h : Homes) (S : Set UInt64) (bottom : UInt64) (room : Nat) (vs : List Value)
    (s s' : State) : Prop extends
    Pushes S (bottom + room.toUInt64) (vs.map (h.word s)) s s' where
  above : h.Above S bottom room s'
  regs : ∀ r, r ≠ .rax → r ≠ .rsp → s'.regs r = s.regs r

theorem ne_of_mem_pool (hr : r ∈ pool) : r ≠ .rax ∧ r ≠ .rsp ∧ r ≠ .rbp := by
  revert hr
  cases r <;> decide

theorem runs_push (hs : h.Above S bottom (room + 8) s) (hv : h.Knows v)
    (hcode : load h .rax v = .ok code) :
    ∃ s', Runs (code ++ [.push .rax]) s [] s' ∧ Pushed h S bottom room [v] s s' := by
  obtain ⟨s₁, hrun, hload⟩ := runs_load_word hs.framed (by decide) hv hcode
  have hsmall := hs.small
  have hpush : Pushes S (bottom + room.toUInt64) [h.word s v] s₁ (s₁.push (s₁.regs .rax)) := by
    rw [hload.value]
    refine pushes_push ?_ ((span_add_subset le_rfl (by omega)).trans hs.free) _
    rw [hload.others .rsp (by decide), hs.rsp, toUInt64_add, ← UInt64.add_assoc,
      show Nat.toUInt64 8 = 8 from rfl]
  have hregs : ∀ r, r ≠ .rax → r ≠ .rsp → (s₁.push (s₁.regs .rax)).regs r = s.regs r :=
    fun r hrax hrsp => (update_of_ne hrsp _ _).trans (hload.others r hrax)
  refine ⟨_, hrun.seq (.instr rfl .refl), hpush.after hload.memory hload.moves,
    hs.shrink (by omega) hpush.rsp (hregs _ (by decide) (by decide)), hregs⟩

theorem Pushed.rbp (hp : Pushed h S bottom room vs s s') : s'.regs .rbp = s.regs .rbp :=
  hp.regs _ (by decide) (by decide)

theorem Pushed.word_eq (hs : h.Above S bottom (room + 8 * vs.length) s)
    (hp : Pushed h S bottom room vs s s') (v : Value) : h.word s' v = h.word s v := by
  have hsmall := hs.small
  refine hs.word_eq (fun r hr => ?_) hp.rbp (fun a ha => hp.memory a fun hin => ha ?_) v
  · exact hp.regs r (ne_of_mem_pool hr).1 (ne_of_mem_pool hr).2.1
  · rw [length_map] at hin
    exact span_add_subset le_rfl (by omega) hin

theorem runs_pushAll (hs : h.Above S bottom (room + 8 * vs.length) s) (hvs : ∀ v ∈ vs, h.Knows v)
    (hcode : pushAll h vs = .ok code) :
    ∃ s', Runs code s [] s' ∧ Pushed h S bottom room vs s s' := by
  induction vs generalizing s code with
  | nil =>
    cases hcode
    exact ⟨s, .refl, ⟨hs.rsp, trivial, fun _ _ => rfl, .of_eq rfl⟩, hs, fun _ _ _ => rfl⟩
  | cons v vs ih =>
    rw [forall_mem_cons] at hvs
    obtain ⟨load, rest, hload, hrest, ⟨⟩⟩ := Except.bind₂_eq_ok.mp hcode
    have hroom : room + 8 * (v :: vs).length = room + 8 * vs.length + 8 := by
      rw [length_cons]
      omega
    rw [hroom] at hs
    have hsmall := hs.small
    obtain ⟨s₁, hrun₁, hp₁⟩ := runs_push hs hvs.1 hload
    obtain ⟨s₂, hrun₂, hp₂⟩ := ih hp₁.above hvs.2 hrest
    have hp := hp₂.toPushes
    rw [map_congr_left fun u _ => hp₁.word_eq (by simpa using hs) u] at hp
    have hfirst := hp₁.toPushes
    rw [toUInt64_add, ← UInt64.add_assoc, ← length_map (h.word s)] at hfirst
    exact ⟨s₂, hrun₁.seq hrun₂, hfirst.append hp (by simp; omega), hp₂.above,
      fun r hrax hrsp => (hp₂.regs r hrax hrsp).trans (hp₁.regs r hrax hrsp)⟩

/-- Only the stack pointer, and flags. -/
structure Shifts (x : UInt64) (s s' : State) : Prop where
  regs : s'.regs = update s.regs .rsp x
  memory : s'.memory = s.memory
  log : s'.log = s.log

theorem runs_sub (s : State) (x : Int32) :
    ∃ s', Runs [.aluImm .sub .qword (.reg .rsp) x] s [] s' ∧
      Shifts (s.regs .rsp - x.toInt64.toUInt64) s s' := by
  refine ⟨_, .instr rfl .refl, ?_, rfl, rfl⟩
  show update s.regs .rsp
    ⟨(s.regs .rsp).toBitVec.setWidth 64 - x.toBitVec.signExtend 64⟩ = _
  rw [BitVec.setWidth_eq]
  rfl

theorem runs_add (s : State) (x : Int32) :
    ∃ s', Runs [.aluImm .add .qword (.reg .rsp) x] s [] s' ∧
      Shifts (s.regs .rsp + x.toInt64.toUInt64) s s' := by
  refine ⟨_, .instr rfl .refl, ?_, rfl, rfl⟩
  show update s.regs .rsp
    ⟨(s.regs .rsp).toBitVec.setWidth 64 + x.toBitVec.signExtend 64⟩ = _
  rw [BitVec.setWidth_eq]
  rfl

theorem shifts_refl (s : State) : Shifts (s.regs .rsp) s s :=
  ⟨(update_eq_self ..).symm, rfl, rfl⟩

theorem Shifts.regs_of_ne (hs : Shifts x s s') (hr : r ≠ .rsp) : s'.regs r = s.regs r := by
  rw [hs.regs, update_of_ne hr]

theorem Shifts.rsp (hs : Shifts x s s') : s'.regs .rsp = x := by
  rw [hs.regs, update_self]

end Stack

section Before

variable {P : CallPlan}

/-- The registers of a plan are saved, and the stack is padded. -/
structure Saves (h : Homes) (P : CallPlan) (S : Set UInt64) (bottom : UInt64) (room : Nat)
    (s s' : State) : Prop where
  above : h.Above S bottom room s'
  regs : ∀ r, r ≠ .rsp → s'.regs r = s.regs r
  saved : s'.memory.HasWords (bottom + (room + P.pad).toUInt64) (P.saved.reverse.map s.regs)
  memory : ∀ a ∉ span (bottom + room.toUInt64) (P.pad + 8 * P.saved.length),
    s'.memory a = s.memory a
  moves : Moves S [] s s'

theorem runs_saves (hs : h.Above S bottom (room + P.pad + 8 * P.saved.length) s)
    (hsaved : ∀ r ∈ P.saved, r ∈ pool) :
    ∃ s', Runs (P.saved.map .push ++
      (if P.pad ≠ 0 then [.aluImm .sub .qword (.reg .rsp) 8] else [])) s [] s' ∧
      Saves h P S bottom room s s' := by
  have hsmall := hs.small
  have hrsp : Reg.rsp ∉ P.saved := fun hin => (ne_of_mem_pool (hsaved _ hin)).2.1 rfl
  obtain ⟨s₁, hrun₁, hregs₁, hp⟩ := runs_pushes (F := S) (s := s)
    (bottom + (room + P.pad).toUInt64) P.saved hrsp
    (by rw [hs.rsp, toUInt64_add (room + P.pad), UInt64.add_assoc]) (by omega)
    ((span_add_subset le_rfl (by omega)).trans hs.free)
  obtain ⟨s₂, hrun₂, hshifts⟩ : ∃ s₂, Runs (if P.pad ≠ 0 then
      [.aluImm .sub .qword (.reg .rsp) 8] else []) s₁ [] s₂ ∧
      Shifts (bottom + room.toUInt64) s₁ s₂ := by
    have hrsp₁ := hp.rsp
    split_ifs with hpad
    · obtain ⟨s₂, hrun₂, hshifts⟩ := runs_sub s₁ 8
      have height : P.pad = 8 := by
        unfold CallPlan.pad at hpad ⊢
        split_ifs at hpad ⊢ with hodd
        · rfl
        · exact absurd rfl hpad
      have hdown : s₁.regs .rsp - (8 : Int32).toInt64.toUInt64 = bottom + room.toUInt64 := by
        rw [hrsp₁, height, toUInt64_add]
        show bottom + (room.toUInt64 + 8) - 8 = _
        grind
      exact ⟨s₂, hrun₂, hdown ▸ hshifts⟩
    · have hzero : P.pad = 0 := by simpa using hpad
      rw [hzero, Nat.add_zero] at hrsp₁
      exact ⟨s₁, .refl, hrsp₁ ▸ shifts_refl s₁⟩
  have hregs : ∀ r, r ≠ .rsp → s₂.regs r = s.regs r := fun r hr =>
    (hshifts.regs_of_ne hr).trans (hregs₁ r hr)
  refine ⟨s₂, hrun₁.seq hrun₂, hs.shrink (by omega) hshifts.rsp (hregs _ (by decide)), hregs, ?_, ?_,
    hp.moves.trans (.of_eq hshifts.log)⟩
  · rw [hshifts.memory, map_reverse]
    exact hp.words
  · intro a ha
    rw [hshifts.memory]
    refine hp.memory a fun hin => ha ?_
    rw [length_map, toUInt64_add, ← UInt64.add_assoc] at hin
    exact span_add_subset le_rfl (by omega) hin

/-- The arguments are where a function looks for them. Nothing is written above the `extent` bytes
from `bottom` on. -/
structure Passes (h : Homes) (P : CallPlan) (entry : UInt64) (S : Set UInt64) (bottom : UInt64)
    (room extent : Nat) (s s' : State) : Prop where
  rsp : s'.regs .rsp = bottom + room.toUInt64
  target : s'.regs .rax = entry
  inRegs : (Reg.arguments.take P.inRegs.length).map s'.regs = P.inRegs.map (h.word s)
  onStack : s'.memory.HasWords (bottom + room.toUInt64) (P.onStack.map (h.word s))
  regs : ∀ r, r.survivesCall = true → r ≠ .rsp → s'.regs r = s.regs r
  memory : ∀ a ∉ span bottom extent, s'.memory a = s.memory a
  moves : Moves S [] s s'

theorem not_survivesCall (hr : r ∈ Reg.arguments ∨ r = .rax) : r.survivesCall = false := by
  revert hr
  cases r <;> decide

theorem runs_passes (entry : UInt64) {stackArgs regArgs : Code}
    (hs : h.Above S bottom (room + 8 * P.inRegs.length + 8 * P.onStack.length) s)
    (hfew : P.inRegs.length ≤ Reg.arguments.length) (hin : ∀ v ∈ P.inRegs, h.Knows v)
    (hon : ∀ v ∈ P.onStack, h.Knows v)
    (hstack : pushAll h P.onStack.reverse = .ok stackArgs)
    (hregs : pushAll h P.inRegs = .ok regArgs) :
    ∃ s', Runs (stackArgs ++ regArgs ++
        (Reg.arguments.take P.inRegs.length).reverse.map .pop ++ [.loadImm .rax entry]) s [] s' ∧
      Passes h P entry S bottom (room + 8 * P.inRegs.length)
        (room + 8 * P.inRegs.length + 8 * P.onStack.length) s s' := by
  have hsmall := hs.small
  have hreverse : P.onStack.reverse.length = P.onStack.length := length_reverse
  rw [← hreverse] at hs
  obtain ⟨s₁, hrun₁, hp₁⟩ := runs_pushAll hs (by simpa using hon) hstack
  obtain ⟨s₂, hrun₂, hp₂⟩ := runs_pushAll hp₁.above hin hregs
  have hword := hp₁.word_eq (by simpa using hs)
  have hwords := hp₂.words
  rw [map_congr_left fun u _ => hword u] at hwords
  let rs := (Reg.arguments.take P.inRegs.length).reverse
  have hlen : rs.length = P.inRegs.length := by simpa [rs] using hfew
  have hsub : ∀ r ∈ rs, r ∈ Reg.arguments := fun r hr =>
    mem_of_mem_take (mem_reverse.mp hr)
  have hnodup : rs.Nodup := by
    refine nodup_reverse.mpr ((take_sublist _ _).nodup ?_)
    decide
  have hrsp : Reg.rsp ∉ rs := fun hr => absurd (hsub _ hr) (by decide)
  obtain ⟨s₃, hrun₃, hrsp₃, hregs₃, hothers₃, hmemory₃, hmoves₃⟩ := runs_pops (F := S) (s := s₂) rs
    hnodup hrsp hp₂.rsp (by omega) (by rw [hlen]; exact (span_add_subset
      (m := room + 8 * P.inRegs.length) le_rfl (by omega)).trans hp₁.above.free) (by simp [hlen]) hwords
  let s₄ := s₃.setReg .rax entry
  have hmemory : s₄.memory = s₂.memory := hmemory₃
  have hset : ∀ r, r ≠ .rax → s₄.regs r = s₃.regs r := fun r hr => update_of_ne hr _ _
  refine ⟨s₄, ((hrun₁.seq hrun₂).seq hrun₃).seq (.instr (Machine.Instr.exec_loadImm _ _ _) .refl),
    ?_, by simp [s₄, State.setReg], ?_, ?_, ?_, ?_,
    ((hp₁.moves.trans hp₂.moves).trans hmoves₃).trans (.of_eq rfl)⟩
  · rw [hset _ (by decide), hrsp₃, hlen, toUInt64_add, UInt64.add_assoc]
  · rw [map_congr_left fun r hr => hset r ?_]
    · simpa [rs] using congrArg reverse hregs₃
    · rintro rfl
      exact absurd (mem_of_mem_take hr) (by decide)
  · have hstack := hp₁.words
    rw [map_reverse, reverse_reverse] at hstack
    rw [hmemory]
    refine hstack.congr (by simp; omega) fun a ha => hp₂.memory a ?_
    rw [length_map] at ha ⊢
    exact Set.disjoint_right.mp (span_add_disjoint le_rfl (by omega)) ha
  · intro r hr hne
    have hnot : r ∉ rs ∧ r ≠ .rax := by
      constructor
      · intro hin
        rw [not_survivesCall (Or.inl (hsub r hin))] at hr
        cases hr
      · rintro rfl
        cases hr
    rw [hset r hnot.2, hothers₃ r hnot.1 hne, hp₂.regs r hnot.2 hne, hp₁.regs r hnot.2 hne]
  · intro a ha
    rw [hmemory, hp₂.memory a fun hin => ha ?_, hp₁.memory a fun hin => ha ?_]
    · rw [length_map, length_reverse] at hin
      exact span_add_subset le_rfl (by omega) hin
    · rw [length_map] at hin
      exact span_add_subset (by omega) (by omega) hin

/-- The processor has come to the instruction that calls: the live registers are saved, and the
arguments are where a function looks for them. -/
structure Prepares (h : Homes) (P : CallPlan) (entry : UInt64) (S : Set UInt64) (bottom : UInt64)
    (room : Nat) (s s' : State) : Prop extends
    Passes h P entry S bottom room (room + P.drop + 8 * P.saved.length) s s' where
  saved : s'.memory.HasWords (bottom + (room + P.drop).toUInt64) (P.saved.reverse.map s.regs)

theorem runs_before (entry : UInt64) {stackArgs regArgs : Code}
    (hs : h.Above S bottom (room + 8 * P.inRegs.length + P.drop + 8 * P.saved.length) s)
    (hsaved : ∀ r ∈ P.saved, r ∈ pool) (hfew : P.inRegs.length ≤ Reg.arguments.length)
    (hin : ∀ v ∈ P.inRegs, h.Knows v) (hon : ∀ v ∈ P.onStack, h.Knows v)
    (hstack : pushAll h P.onStack.reverse = .ok stackArgs)
    (hregs : pushAll h P.inRegs = .ok regArgs) :
    ∃ s', Runs (P.before entry stackArgs regArgs) s [] s' ∧
      Prepares h P entry S bottom (room + 8 * P.inRegs.length) s s' := by
  have hdrop : P.drop = 8 * P.onStack.length + P.pad := rfl
  have hsmall := hs.small
  rw [hdrop, ← Nat.add_assoc] at hs
  obtain ⟨s₁, hrun₁, hsaves⟩ := runs_saves hs hsaved
  obtain ⟨s₂, hrun₂, hpasses⟩ := runs_passes entry hsaves.above hfew hin hon hstack hregs
  have hword : h.word s₁ = h.word s := by
    funext v
    refine hs.word_eq (fun r hr => hsaves.regs r (ne_of_mem_pool hr).2.1)
      (hsaves.regs _ (by decide)) (fun a ha => hsaves.memory a fun hin => ha ?_) v
    exact span_add_subset (by omega) (by omega) hin
  refine ⟨s₂, ?_, ⟨hpasses.rsp, hpasses.target, hword ▸ hpasses.inRegs, hword ▸ hpasses.onStack, ?_, ?_,
    hsaves.moves.trans hpasses.moves⟩, ?_⟩
  · simpa only [CallPlan.before, append_assoc] using hrun₁.seq hrun₂
  · intro r hr hne
    rw [hpasses.regs r hr hne, hsaves.regs r hne]
  · intro a ha
    rw [hpasses.memory a fun hin => ha (span_subset_of_le (by omega) hin),
      hsaves.memory a fun hin => ha (span_add_subset (by omega) (by omega) hin)]
  · rw [hdrop, ← Nat.add_assoc]
    refine hsaves.saved.congr (by simp; omega) fun a ha => hpasses.memory a ?_
    rw [length_map, length_reverse] at ha
    exact Set.disjoint_right.mp (span_disjoint_add (by omega) (by omega)) ha

end Before

section Behind

variable {s₁ s₂ : State} {P : CallPlan}

/-- What a function leaves that was called in `s`: the registers that it must keep, and of the stack
what is above the arguments, which end `used` bytes from `bottom` on. -/
structure Respects (S : Set UInt64) (bottom : UInt64) (used : Nat) (s s' : State) : Prop where
  regs : ∀ r, r.survivesCall = true → s'.regs r = s.regs r
  memory : ∀ a ∈ S, a ∉ span bottom used → s'.memory a = s.memory a

/-- The stack pointer is back, and so are the registers that were saved. -/
structure Reloads (P : CallPlan) (S : Set UInt64) (s s₂ s' : State) : Prop where
  rsp : s'.regs .rsp = s.regs .rsp
  saved : ∀ r ∈ P.saved, s'.regs r = s.regs r
  others : ∀ r ∉ P.saved, r ≠ .rsp → s'.regs r = s₂.regs r
  memory : s'.memory = s₂.memory
  moves : Moves S [] s₂ s'

theorem Home.Holds.word {home : Home} (hx : home.Holds s x) : home.word s = x := by
  cases home with
  | reg | spill => exact hx
  | slot | none => exact hx.elim

section Called

variable (hp : Prepares h P entry S bottom room s s₁)
  (hr : Respects S bottom (room + 8 * P.onStack.length) s₁ s₂)
include hp hr

/-- The registers of the convention and the saved ones are as before the call. -/
theorem Reloads.regs_eq (hl : Reloads P S s s₂ s') (hkept : r.survivesCall = true ∨ r ∈ P.saved) :
    s'.regs r = s.regs r := by
  by_cases hin : r ∈ P.saved
  · exact hl.saved r hin
  · have hsurvives := hkept.resolve_right hin
    by_cases hrsp : r = .rsp
    · subst hrsp
      exact hl.rsp
    · rw [hl.others r hin hrsp, hr.regs r hsurvives, hp.regs r hsurvives hrsp]

variable (hs : h.Above S bottom (room + P.drop + 8 * P.saved.length) s)
include hs

/-- Homes above the free part of the stack have what they had before the call. -/
theorem Reloads.word_eq (hl : Reloads P S s s₂ s') {id : Int}
    (hid : ∀ r, h.get id = .reg r → r.survivesCall = true ∨ r ∈ P.saved) :
    (h.get id).word s' = (h.get id).word s := by
  have hpad : 8 * P.onStack.length ≤ P.drop := Nat.le_add_right _ _
  refine Home.word_congr (fun r hreg => hl.regs_eq hp hr (hid r hreg))
    (hl.regs_eq hp hr (Or.inl rfl)) fun a ha => ?_
  have hout := Set.disjoint_left.mp hs.apart ha
  have hin : a ∈ S := by
    cases hhome : h.get id with
    | reg | slot | none =>
      rw [hhome] at ha
      exact ha.elim
    | spill disp n =>
      rw [hhome] at ha
      exact hs.framed.frame hhome ha
  rw [hl.memory, hr.memory a hin fun h => hout (span_subset_of_le (by omega) h), hp.memory a hout]

theorem runs_reloads (hsaved : ∀ r ∈ P.saved, r ∈ pool) (hnodup : P.saved.Nodup)
    (hdrop : P.drop < 2 ^ 31) :
    ∃ s', Runs ((if P.drop ≠ 0 then
        [.aluImm .add .qword (.reg .rsp) (displacement P.drop)] else []) ++
        P.saved.reverse.map .pop) s₂ [] s' ∧ Reloads P S s s₂ s' := by
  have hsmall := hs.small
  have hpad : 8 * P.onStack.length ≤ P.drop := Nat.le_add_right _ _
  have hrsp₂ : s₂.regs .rsp = bottom + room.toUInt64 := (hr.regs .rsp rfl).trans hp.rsp
  obtain ⟨s₃, hrun₃, hshifts⟩ : ∃ s₃, Runs (if P.drop ≠ 0 then
      [.aluImm .add .qword (.reg .rsp) (displacement P.drop)] else []) s₂ [] s₃ ∧
      Shifts (bottom + (room + P.drop).toUInt64) s₂ s₃ := by
    split_ifs with hzero
    · obtain ⟨s₃, hrun₃, hshifts⟩ := runs_add s₂ (displacement P.drop)
      rw [hrsp₂, word_displacement hdrop, UInt64.add_assoc, ← toUInt64_add] at hshifts
      exact ⟨s₃, hrun₃, hshifts⟩
    · rw [show P.drop = 0 by simpa using hzero, Nat.add_zero, ← hrsp₂]
      exact ⟨s₂, .refl, shifts_refl s₂⟩
  have hlen : P.saved.reverse.length = P.saved.length := length_reverse
  have hspan : span (bottom + (room + P.drop).toUInt64) (8 * P.saved.length) ⊆ S :=
    (span_add_subset le_rfl (by omega)).trans hs.free
  have hwords : s₃.memory.HasWords (bottom + (room + P.drop).toUInt64) (P.saved.reverse.map s.regs) := by
    rw [hshifts.memory]
    refine hp.saved.congr (by simp; omega) fun a ha => ?_
    rw [length_map, hlen] at ha
    refine hr.memory a (hspan ha) ?_
    exact Set.disjoint_right.mp (span_disjoint_add (by omega) (by omega)) ha
  obtain ⟨s₄, hrun₄, hrsp₄, hregs₄, hothers₄, hmemory₄, hmoves₄⟩ := runs_pops (F := S) (s := s₃)
    P.saved.reverse (nodup_reverse.mpr hnodup)
    (fun hin => (ne_of_mem_pool (hsaved _ (mem_reverse.mp hin))).2.1 rfl) hshifts.rsp
    (by omega) (by rwa [hlen]) (by simp) hwords
  refine ⟨s₄, hrun₃.seq hrun₄, ?_, ?_, ?_, hmemory₄.trans hshifts.memory, ?_⟩
  · rw [hrsp₄, hlen, hs.rsp, toUInt64_add (room + P.drop), UInt64.add_assoc]
  · exact fun r hr' => map_inj_left.mp hregs₄ r (mem_reverse.mpr hr')
  · intro r hr' hne
    rw [hothers₄ r (fun hin => hr' (mem_reverse.mp hin)) hne, hshifts.regs_of_ne hne]
  · have hmoves₃ : Moves S [] s₂ s₃ := .of_eq hshifts.log
    exact hmoves₃.trans hmoves₄

/-- A variable that is needed behind the call at which `i` gets its result: its register is saved or
outlives the call, and its home is not that of the result. -/
structure Outlives (h : Homes) (P : CallPlan) (i : Dynarec.Instr) (s : State) (id : Int) : Prop where
  reg : ∀ r, h.get id = .reg r → r.survivesCall = true ∨ r ∈ P.saved
  other : i.hasResult = true → ∀ r, h.get id = .reg r → h.get i.res ≠ .reg r
  apart : i.hasResult = true → Disjoint ((h.get id).span s) ((h.get i.res).span s)

/-- What a call comes to. -/
structure Recovers (h : Homes) (P : CallPlan) (i : Dynarec.Instr) (S : Set UInt64)
    (s s₂ s' : State) : Prop where
  rsp : s'.regs .rsp = s.regs .rsp
  words : ∀ id, Outlives h P i s id → (h.get id).word s' = (h.get id).word s
  result : i.hasResult = true → (h.get i.res).word s' = s₂.regs .rax &&& i.ty.mask
  moves : Moves S [] s₂ s'

theorem runs_behind {result : Code} (hsaved : ∀ r ∈ P.saved, r ∈ pool) (hnodup : P.saved.Nodup)
    (hdrop : P.drop < 2 ^ 31) (hhouses : i.hasResult = true → h.Houses i ∧ i.ty.IsScalar)
    (hresult : Fetches h i result) :
    ∃ s', Runs (P.behind result) s₂ [] s' ∧ Recovers h P i S s s₂ s' := by
  obtain ⟨s₃, hrun₃, hl⟩ := runs_reloads hp hr hs hsaved hnodup hdrop
  have hwords : ∀ {id}, Outlives h P i s id → (h.get id).word s₃ = (h.get id).word s :=
    fun hid => hl.word_eq hp hr hs hid.reg
  have hrbp : s₃.regs .rbp = s.regs .rbp := hl.regs_eq hp hr (Or.inl rfl)
  unfold CallPlan.behind
  cases hresult with
  | none hno =>
    refine ⟨s₃, by simpa using hrun₃, hl.rsp, fun id hid => hwords hid, ?_, hl.moves⟩
    simp [hno]
  | @result back hyes hback =>
    obtain ⟨hhouse, hscalar⟩ := hhouses hyes
    have hframed : h.Framed S s₃ := (hs.shrink le_rfl (hl.rsp.trans hs.rsp) hrbp).framed
    have hmask : Yields S (mask i.ty .rax) s₃ fun s' =>
        s'.regs .rax = s₃.regs .rax &&& i.ty.mask :=
      (yields_mask S s₃ hscalar (by decide)).mono fun _ h => by simp [h]
    obtain ⟨s₄, hrun₄, hsettles⟩ :=
      hmask.settles hframed hhouse hscalar hback (i.ty.fits_and_mask _)
    have hrax : s₃.regs .rax = s₂.regs .rax := by
      refine hl.others _ (fun hin => ?_) (by decide)
      exact (ne_of_mem_pool (hsaved _ hin)).1 rfl
    have hstays : ∀ r, r ∈ [Reg.rsp, .rbp] → s₄.regs r = s₃.regs r := by
      intro r hr'
      refine hsettles.regs r (by revert hr'; cases r <;> decide) fun hhome => ?_
      have := ne_of_mem_pool (hs.framed.pool hhome)
      simp [this] at hr'
    refine ⟨s₄, hrun₃.seq hrun₄, (hstays _ (by decide)).trans hl.rsp, ?_, ?_,
      hl.moves.trans hsettles.moves⟩
    · intro id hid
      rw [← hwords hid]
      refine Home.word_congr (fun r hreg => ?_) (hstays _ (by decide)) fun a ha => ?_
      · exact hsettles.regs r (notMem_scratch (hs.framed.pool hreg)) (hid.other hyes r hreg)
      · refine hsettles.memory a fun hin => ?_
        rw [Home.span_of_eq _ hrbp] at ha hin
        exact Set.disjoint_left.mp (hid.apart hyes) ha hin
    · intro _
      rw [hsettles.holds.word, hrax]

end Called

end Behind

end Dynarec.Native
