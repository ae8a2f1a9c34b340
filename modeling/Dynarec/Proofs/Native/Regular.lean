import Dynarec.Machine.Listing
import Dynarec.Proofs.Native.Layout
import Dynarec.Proofs.Native.Scalar
import Dynarec.Proofs.Native.Writes

/-!
# Selected code is read as it is written

The one instruction whose bytes are not all read, an operation on two bytes with a long constant, is
never selected, and every condition and multiplication that is selected has an encoding. Jumps are
selected for assertions and divisions only. Apart from calls, selected code writes scratch registers
and homes only.
-/
namespace Dynarec

open List

variable {code : Code} {w : Workspace} {k : Nat}

/-- The distance that an instruction jumps, if it is a jump. -/
def Machine.Instr.rel? : Machine.Instr → Option Int32
  | .jmp rel | .jcc _ rel => some rel
  | _ => none

/-- Whether an instruction is read as it is written, and goes on to the next one. -/
def Machine.Instr.Straight (i : Machine.Instr) : Prop :=
  i.Regular ∧ i.rel? = none

namespace Native

open Machine

/-- Whether an instruction is straight, and writes scratch registers and homes only. -/
def Tame (h : Homes) (i : Machine.Instr) : Prop :=
  i.Straight ∧ ∀ r ∈ i.writes, r ∈ scratch ∨ ∃ id, h.get id = .reg r

def All (P : Machine.Instr → Prop) (code : Code) : Prop :=
  ∀ i ∈ code, P i

section All

variable {P Q : Machine.Instr → Prop} {code' : Code}

@[simp] theorem all_nil : All P [] := by
  simp [All]

@[simp] theorem all_cons {i : Machine.Instr} : All P (i :: code) ↔ P i ∧ All P code := by
  simp [All]

theorem all_singleton {i : Machine.Instr} : All P [i] ↔ P i := by
  simp

@[simp] theorem all_append : All P (code ++ code') ↔ All P code ∧ All P code' := by
  simp only [All, mem_append, or_imp, forall_and]

theorem all_ite {p : Prop} [Decidable p] (hcode : All P code) (hcode' : All P code') :
    All P (if p then code else code') := by
  split_ifs
  · exact hcode
  · exact hcode'

theorem All.imp (hcode : All P code) (hP : ∀ i, P i → Q i) : All Q code :=
  fun i hi => hP i (hcode i hi)

end All

abbrev AllRegular := All Machine.Instr.Regular

abbrev AllStraight := All Machine.Instr.Straight

theorem AllStraight.regular (hcode : AllStraight code) : AllRegular code :=
  hcode.imp fun _ hi => hi.1

/-- A sweep over the bytes of the code finds its instructions. -/
theorem chunks_flatMap_encode (hcode : AllRegular code) :
    chunks (code.flatMap Machine.Instr.encode) =
      code.map fun i => ⟨i.encode, .instr i.cut⟩ := by
  induction code with
  | nil =>
    rw [flatMap_nil, chunks]
    rfl
  | cons i code ih =>
    obtain ⟨⟨hform, hsurplus⟩, hrest⟩ := all_cons.mp hcode
    have hdecode := decode_encode hform (code.flatMap Machine.Instr.encode)
    rw [hsurplus, Nat.sub_zero] at hdecode
    have hlen : i.length = i.encode.length := rfl
    cases hbytes : i.encode with
    | nil =>
      have hnone := decode_encode hform []
      rw [hbytes] at hnone
      cases hnone
    | cons b bs =>
      rw [hbytes, length_cons] at hlen
      rw [hbytes, cons_append] at hdecode
      rw [flatMap_cons, hbytes, cons_append, chunks]
      simp only [frontOf, hdecode, hlen, Nat.add_sub_cancel, take_left, drop_left,
        ih hrest, map_cons, hbytes]

variable {h : Homes} {v : Value} {dst r : Reg} {i : Dynarec.Instr} {op : BinOp} {size : Size}

theorem All.straight (hcode : All (Tame h) code) : AllStraight code :=
  hcode.imp fun _ hi => hi.1

theorem tame_scratch {i : Machine.Instr} (hr : r ∈ scratch) (hi : i.Straight)
    (hwrites : i.writes = [r]) : Tame h i := by
  refine ⟨hi, fun q hq => Or.inl ?_⟩
  rw [hwrites, mem_singleton] at hq
  exact hq ▸ hr

theorem tame_rax {i : Machine.Instr} (hi : i.Straight) (hwrites : i.writes = [.rax]) : Tame h i :=
  tame_scratch (by decide) hi hwrites

theorem tame_of_writes_nil {i : Machine.Instr} (hi : i.Straight) (hwrites : i.writes = []) :
    Tame h i :=
  ⟨hi, by simp [hwrites]⟩

theorem tame_loadImm (hdst : dst ∈ scratch) (x : UInt64) : Tame h (.loadImm dst x) := by
  unfold Machine.Instr.loadImm
  split_ifs <;> exact tame_scratch hdst ⟨⟨trivial, rfl⟩, rfl⟩ rfl

theorem tame_mask (t : Ty) (hr : r ∈ scratch) : All (Tame h) (Select.mask t r) := by
  unfold Select.mask
  split_ifs <;> simp only [all_cons, all_nil, and_true]
  all_goals exact tame_scratch hr ⟨⟨trivial, rfl⟩, rfl⟩ rfl

theorem tame_widen (t : Ty) (hr : r ∈ scratch) : All (Tame h) (Select.widen t r) := by
  unfold Select.widen
  split_ifs <;> simp only [all_cons, all_nil, and_true]
  all_goals exact tame_scratch hr ⟨⟨trivial, rfl⟩, rfl⟩ rfl

theorem tame_divideCode (op : BinOp) (size : Size) : All (Tame h) (Select.divideCode op size) := by
  have hrdx : Reg.rdx ∈ scratch := by decide
  have hextend : Tame h (if size = .qword then .cqo else .cdq) := by
    split_ifs <;> exact tame_scratch hrdx ⟨⟨trivial, rfl⟩, rfl⟩ rfl
  have hdivide {o : UnaryOp} (ho : o = .div ∨ o = .idiv) : Tame h (.unary o size (.reg .rcx)) := by
    refine ⟨⟨⟨trivial, rfl⟩, rfl⟩, fun r hr => Or.inl ?_⟩
    simp only [Machine.Instr.writes, if_pos ho] at hr
    revert hr
    cases r <;> decide
  refine all_append.mpr ⟨all_ite ?_ ?_, all_ite (all_singleton.mpr ?_) all_nil⟩
  · simpa using ⟨hextend, hdivide (Or.inr rfl)⟩
  · simpa using ⟨tame_scratch hrdx ⟨⟨trivial, rfl⟩, rfl⟩ rfl, hdivide (Or.inl rfl)⟩
  · exact tame_rax ⟨⟨trivial, rfl⟩, rfl⟩ rfl

/-- Divisions have operands of four or eight bytes. -/
theorem straight_cmp (hsize : size ≠ .word) :
    (Machine.Instr.aluImm .cmp size (.reg .rcx) (-1)).Straight := by
  cases size with
  | word => exact absurd rfl hsize
  | byte | dword | qword => exact ⟨⟨trivial, rfl⟩, rfl⟩

theorem tame_minusOne (op : BinOp) (size : Size) :
    Tame h (if Select.isRemainder op then .alu .xor .dword .rax (.reg .rax)
      else .unary .neg size (.reg .rax)) := by
  split_ifs <;> exact tame_rax ⟨⟨trivial, rfl⟩, rfl⟩ rfl

/-- Whether the code of an operation jumps: an assertion goes round its trap, a division round the
hardware division. -/
def Select.jumps : Op → Bool
  | .assert _ => true
  | .binop op _ _ => op.isDivision
  | _ => false

/-- A spilled variable takes the room of a value. -/
def Homes.Sized (h : Homes) : Prop :=
  ∀ {id : Int} {disp : Int} {size : Nat}, h.get id = .spill disp size →
    ∃ t : Ty, t.IsScalar ∧ size = t.bytes

/-- The computation has a result if `S` holds, and any result that it has is one of `P`. -/
def Gives {ε α : Type} (S : Prop) (P : α → Prop) (x : Except ε α) : Prop :=
  (S → ∃ a, x = .ok a) ∧ ∀ a, x = .ok a → P a

namespace Gives

variable {ε α β : Type} {S : Prop} {P : α → Prop} {Q : β → Prop}

theorem ok {a : α} (ha : P a) : Gives S P (.ok a : Except ε α) :=
  ⟨fun _ => ⟨a, rfl⟩, fun _ hb => Except.ok.inj hb ▸ ha⟩

theorem bind {x : Except ε α} {f : α → Except ε β} (hx : Gives S P x)
    (hf : ∀ a, P a → Gives S Q (f a)) : Gives S Q (x >>= f) := by
  constructor
  · intro hs
    obtain ⟨a, rfl⟩ := hx.1 hs
    exact (hf a (hx.2 a rfl)).1 hs
  · intro b hb
    obtain ⟨a, ha, hb⟩ := Except.bind_eq_ok.mp hb
    exact (hf a (hx.2 a ha)).2 b hb

end Gives

section Selected

open Select

variable {S : Prop} {n : Nat} {x y : Value}

theorem gives_ofBytes (hn : S → ∃ t : Ty, t.IsScalar ∧ n = t.bytes) :
    Gives S (fun _ => True) (Size.ofBytes n) := by
  refine ⟨fun hs => ?_, fun _ _ => trivial⟩
  obtain ⟨t, ht, rfl⟩ := hn hs
  rcases ht.cases with rfl | rfl | rfl | rfl | rfl <;> exact ⟨_, rfl⟩

theorem gives_zeroExtend {src : Operand} (hdst : dst ∈ scratch)
    (hn : S → ∃ t : Ty, t.IsScalar ∧ n = t.bytes) :
    Gives S (Tame h) (Machine.Instr.zeroExtend n dst src) := by
  unfold Machine.Instr.zeroExtend
  split_ifs
  · exact .ok (tame_scratch hdst ⟨⟨trivial, rfl⟩, rfl⟩ rfl)
  · exact .ok (tame_scratch hdst ⟨⟨trivial, rfl⟩, rfl⟩ rfl)
  · exact (gives_ofBytes hn).bind fun _ _ => .ok (tame_scratch hdst ⟨⟨trivial, rfl⟩, rfl⟩ rfl)

variable (hsized : S → h.Sized)
include hsized

theorem gives_load (hdst : dst ∈ scratch) (v : Value) : Gives S (All (Tame h)) (load h dst v) := by
  cases v with
  | const t x => exact .ok (by simpa using tame_loadImm hdst x)
  | var t id =>
    rw [load]
    split
    · exact .ok all_nil
    · exact .ok (all_ite all_nil (all_singleton.mpr (tame_scratch hdst ⟨⟨trivial, rfl⟩, rfl⟩ rfl)))
    · rename_i disp size hget
      exact (gives_zeroExtend hdst fun hs => hsized hs hget).bind fun _ hi =>
        .ok (all_singleton.mpr hi)
    · exact .ok (all_singleton.mpr (tame_scratch hdst ⟨⟨trivial, rfl⟩, rfl⟩ rfl))

theorem gives_store (i : Dynarec.Instr) (r : Reg) : Gives S (All (Tame h)) (store h i r) := by
  rw [store]
  split
  · rename_i q hget
    refine .ok (all_singleton.mpr ⟨⟨⟨trivial, rfl⟩, rfl⟩, fun q' hq' => Or.inr ⟨i.res, ?_⟩⟩)
    rw [hget, mem_singleton.mp hq']
  · rename_i disp size hget
    exact (gives_ofBytes fun hs => hsized hs hget).bind fun _ _ =>
      .ok (all_singleton.mpr (tame_of_writes_nil ⟨⟨trivial, rfl⟩, rfl⟩ rfl))
  · exact .ok all_nil
  · exact .ok all_nil

theorem gives_address (v : Value) : Gives S (fun p => All (Tame h) p.1) (address h v) := by
  rw [address.eq_def]
  split
  · split
    · exact .ok all_nil
    · exact (gives_load hsized (by decide) _).bind fun _ hload => .ok hload
  · exact (gives_load hsized (by decide) _).bind fun _ hload => .ok hload

theorem gives_aluCode (alu : AluOp) (y : Value) : Gives S (All (Tame h)) (aluCode h alu y) := by
  have hload (v : Value) : Gives S (All (Tame h)) (do return (← load h .rcx v) ++
      [Machine.Instr.alu alu .qword .rax (.reg .rcx)]) :=
    (gives_load hsized (by decide) v).bind fun _ hload =>
      .ok (by simpa using ⟨hload, tame_rax ⟨⟨trivial, rfl⟩, rfl⟩ rfl⟩)
  rw [aluCode.eq_def]
  split
  · split_ifs
    · exact .ok (all_singleton.mpr (tame_rax ⟨⟨trivial, rfl⟩, rfl⟩ rfl))
    · exact hload _
  · exact hload _

theorem gives_arithmetic : Gives S (All (Tame h)) (arithmetic h i op x y) := by
  refine (gives_load hsized (by decide) x).bind fun _ hfirst => ?_
  have hmask : All (Tame h) (if needsMask op then mask i.ty .rax else []) :=
    all_ite (tame_mask _ (by decide)) all_nil
  cases aluOp? op with
  | some alu =>
    exact (gives_aluCode hsized alu y).bind fun _ hsecond => (gives_store hsized i _).bind
      fun _ hback => .ok (by simpa using ⟨hfirst, hsecond, hmask, hback⟩)
  | none =>
    have hmul : Tame h (.imul .qword .rax (.reg .rcx)) :=
      tame_rax ⟨⟨show Size.qword ≠ .byte by decide, rfl⟩, rfl⟩ rfl
    exact (gives_load hsized (by decide) y).bind fun _ hload => (gives_store hsized i _).bind
      fun _ hback => .ok (by simpa using ⟨hfirst, hload, hmul, hmask, hback⟩)

theorem gives_shift : Gives S (All (Tame h)) (shift h i op x y) := by
  refine (gives_load hsized (by decide) x).bind fun _ hfirst => ?_
  have hmask := tame_mask (h := h) (r := .rax) i.ty (by decide)
  have hsign := tame_widen (h := h) (r := .rax) i.ty (by decide)
  cases y with
  | const t n =>
    refine (gives_store hsized i _).bind fun _ hback => .ok ?_
    simp only [all_append, all_cons, all_nil, and_true]
    exact ⟨⟨⟨⟨hfirst, all_ite hsign all_nil⟩, tame_rax ⟨⟨trivial, rfl⟩, rfl⟩ rfl⟩,
      all_ite hmask all_nil⟩, hback⟩
  | var t id =>
    refine (gives_load hsized (by decide : .rcx ∈ scratch) _).bind fun _ hcount =>
      (gives_store hsized i _).bind fun _ hback => .ok ?_
    have hcut (x : Int32) : All (Tame h) [.aluImm .and .dword (.reg .rcx) x] :=
      all_singleton.mpr (tame_scratch (by decide) ⟨⟨trivial, rfl⟩, rfl⟩ rfl)
    simp only [all_append, all_cons, all_nil, and_true]
    exact ⟨⟨⟨⟨hfirst, all_ite hsign all_nil⟩, ⟨hcount, all_ite (hcut _) all_nil⟩,
      tame_rax ⟨⟨trivial, rfl⟩, rfl⟩ rfl⟩, all_ite hmask all_nil⟩, hback⟩

theorem gives_compare {op : CmpOp} : Gives S (All (Tame h)) (compare h i op x y) := by
  refine (gives_load hsized (by decide) x).bind fun _ hfirst =>
    (gives_load hsized (by decide) y).bind fun _ hsecond =>
    (gives_store hsized i _).bind fun _ hback => .ok ?_
  have hcond : (cond op).code < 16 := by cases op <;> decide
  have hset : Tame h (.setcc (cond op) (.reg .rax)) := tame_rax ⟨⟨hcond, rfl⟩, rfl⟩ rfl
  have hsign : All (Tame h) (widen x.ty .rax ++ widen x.ty .rcx) :=
    all_append.mpr ⟨tame_widen _ (by decide), tame_widen _ (by decide)⟩
  simp only [all_append, all_cons, all_nil, and_true]
  exact ⟨⟨⟨⟨hfirst, hsecond⟩, all_ite hsign all_nil⟩, tame_rax ⟨⟨trivial, rfl⟩, rfl⟩ rfl, hset,
    tame_rax ⟨⟨trivial, rfl⟩, rfl⟩ rfl⟩, hback⟩

theorem gives_storeMem {a : Value} (hx : S → x.ty.IsScalar) :
    Gives S (All (Tame h)) (storeMem h a x) := by
  have hsize := gives_ofBytes fun hs => ⟨x.ty, hx hs, rfl⟩
  unfold storeMem
  dsimp only
  split
  · exact (gives_address hsized a).bind fun _ hp => hsize.bind fun _ _ =>
      .ok (by simpa using ⟨hp, tame_of_writes_nil ⟨⟨trivial, rfl⟩, rfl⟩ rfl⟩)
  · exact (gives_load hsized (by decide) x).bind fun _ hfirst =>
      (gives_address hsized a).bind fun _ hp => hsize.bind fun _ _ =>
      .ok (by simpa using ⟨hfirst, hp, tame_of_writes_nil ⟨⟨trivial, rfl⟩, rfl⟩ rfl⟩)

theorem gives_writeCell {b : Binding} (hb : S → b.ty.IsScalar) :
    Gives S (All (Tame h)) (writeCell h b x) := by
  refine (gives_ofBytes fun hs => ⟨b.ty, hb hs, rfl⟩).bind fun _ _ => ?_
  have hcell := tame_loadImm (h := h) (by decide : .rcx ∈ scratch) b.cell
  split
  · exact .ok (by simpa using ⟨hcell, tame_of_writes_nil ⟨⟨trivial, rfl⟩, rfl⟩ rfl⟩)
  · exact (gives_load hsized (by decide) x).bind fun _ hfirst =>
      .ok (by simpa using ⟨hfirst, hcell, tame_of_writes_nil ⟨⟨trivial, rfl⟩, rfl⟩ rfl⟩)

/-- Apart from calls, code without jumps writes scratch registers and homes only. -/
theorem gives_code (hjumps : jumps i.op = false)
    (hcall : ∀ target params, i.op ≠ .call target params) (hres : S → i.hasResult = true → i.ty.IsScalar)
    (hops : S → ∀ v ∈ i.op.operands, v.ty.IsScalar) (hcell : S → ∀ reg,
      i.op = .read reg ∨ (∃ x, i.op = .write reg x) → (w.binding reg).ty.IsScalar) : Gives S (All (Tame h)) (Select.code h w k i) := by
  have hmask {r : Reg} (hr : r ∈ scratch) := tame_mask (h := h) i.ty hr
  obtain ⟨op, ty, res⟩ := i
  cases op with
  | alloc | exit | br | unknown => exact .ok all_nil
  | call target params => exact absurd rfl (hcall target params)
  | assert c => cases hjumps
  | not x =>
    have hnot : Tame h (.unary .not .qword (.reg .rax)) := tame_rax ⟨⟨trivial, rfl⟩, rfl⟩ rfl
    exact (gives_load hsized (by decide) x).bind fun _ hload => (gives_store hsized _ _).bind
      fun _ hback => .ok (by simpa using ⟨hload, hnot, hmask (by decide), hback⟩)
  | cvt op x =>
    refine (gives_load hsized (by decide) x).bind fun _ hload => (gives_store hsized _ _).bind
      fun _ hback => .ok ?_
    simp only [all_append]
    exact ⟨⟨⟨hload, all_ite (tame_widen _ (by decide)) all_nil⟩, hmask (by decide)⟩, hback⟩
  | icmp op x y => exact gives_compare hsized
  | load a =>
    refine (gives_address hsized a).bind fun _ hp =>
      (gives_zeroExtend (h := h) (by decide) fun hs => ⟨ty, hres hs rfl, rfl⟩).bind fun _ hget =>
      (gives_store hsized _ _).bind fun _ hback => .ok ?_
    simp only [all_append, all_cons, all_nil, and_true]
    exact ⟨⟨⟨hp, hget⟩, all_ite (hmask (by decide)) all_nil⟩, hback⟩
  | store a x => exact gives_storeMem hsized fun hs => hops hs x (by simp [Op.operands])
  | read reg =>
    exact (gives_zeroExtend (h := h) (by decide) fun hs =>
      ⟨_, hcell hs reg (Or.inl rfl), rfl⟩).bind fun _ hget =>
      (gives_store hsized _ _).bind fun _ hback =>
      .ok (by simpa using ⟨tame_loadImm (by decide) _, hget, hmask (by decide), hback⟩)
  | write reg x => exact gives_writeCell hsized fun hs => hcell hs reg (Or.inr ⟨x, rfl⟩)
  | binop op x y =>
    simp only [jumps] at hjumps
    simp only [Select.code, hjumps, Bool.false_eq_true, if_false]
    split_ifs
    · exact gives_shift hsized
    · exact gives_arithmetic hsized

theorem gives_pushAll (vs : List Value) : Gives S AllStraight (pushAll h vs) := by
  induction vs with
  | nil => exact .ok all_nil
  | cons v vs ih =>
    exact (gives_load hsized (by decide) v).bind fun _ hload => ih.bind fun _ hrest =>
      .ok (by simpa using ⟨hload.straight, ⟨⟨trivial, rfl⟩, rfl⟩, hrest⟩)

omit hsized

theorem tame_load (hdst : dst ∈ scratch) (hcode : load h dst v = .ok code) : All (Tame h) code :=
  (gives_load (S := False) False.elim hdst v).2 _ hcode

theorem tame_store (hcode : store h i r = .ok code) : All (Tame h) code :=
  (gives_store (S := False) False.elim i r).2 _ hcode

theorem tame_code (hjumps : jumps i.op = false)
    (hcall : ∀ target params, i.op ≠ .call target params) (hcode : Select.code h w k i = .ok code) : All (Tame h) code :=
  (gives_code (S := False) False.elim hjumps hcall False.elim False.elim False.elim).2 _ hcode

end Selected

theorem allStraight_map_push (rs : List Reg) : AllStraight (rs.map .push) :=
  forall_mem_map.mpr fun _ _ => ⟨⟨trivial, rfl⟩, rfl⟩

theorem allStraight_map_pop (rs : List Reg) : AllStraight (rs.map .pop) :=
  forall_mem_map.mpr fun _ _ => ⟨⟨trivial, rfl⟩, rfl⟩

theorem allStraight_frame (h : Homes) {saved args : List Reg} {pad drop : Nat} {entry : UInt64}
    {stackArgs regArgs result : Code} (hstack : AllStraight stackArgs) (hregs : AllStraight regArgs)
    (hresult : AllStraight result) : AllStraight (saved.map .push ++
      (if pad ≠ 0 then [.aluImm .sub .qword (.reg .rsp) 8] else []) ++ stackArgs ++ regArgs ++
      args.map .pop ++ [.loadImm .rax entry, .call .rax] ++
      (if drop ≠ 0 then [.aluImm .add .qword (.reg .rsp) (displacement drop)] else []) ++
      saved.reverse.map .pop ++ result) := by
  have hadjust (op : AluOp) (x : Int32) :
      AllStraight [Machine.Instr.aluImm op .qword (.reg .rsp) x] := by
    simpa using ⟨⟨trivial, rfl⟩, rfl⟩
  have henter : AllStraight [Machine.Instr.loadImm .rax entry, .call .rax] := by
    simpa using ⟨(tame_loadImm (h := h) (by decide) _).1, ⟨trivial, rfl⟩, rfl⟩
  simp only [all_append]
  exact ⟨⟨⟨⟨⟨⟨⟨⟨allStraight_map_push _, all_ite (hadjust _ _) all_nil⟩, hstack⟩, hregs⟩,
    allStraight_map_pop _⟩, henter⟩, all_ite (hadjust _ _) all_nil⟩, allStraight_map_pop _⟩,
    hresult⟩

theorem gives_call {S : Prop} (hsized : S → h.Sized) {entry : UInt64} {params : List Value} :
    Gives S AllStraight (Select.call h i k entry params) := by
  refine (gives_pushAll hsized _).bind fun _ hstack => (gives_pushAll hsized _).bind
    fun _ hregs => ?_
  cases i.hasResult with
  | true =>
    exact (gives_store hsized i _).bind fun _ hback => .ok (allStraight_frame h hstack hregs
      (all_append.mpr ⟨(tame_mask (h := h) _ (by decide)).straight, hback.straight⟩))
  | false => exact .ok (allStraight_frame h hstack hregs all_nil)

theorem allStraight_code (hjumps : Select.jumps i.op = false)
    (hcode : Select.code h w k i = .ok code) : AllStraight code := by
  by_cases hcall : ∃ target params, i.op = .call target params
  · obtain ⟨target, params, hop⟩ := hcall
    simp only [Select.code, hop] at hcode
    exact (gives_call (S := False) False.elim).2 _ hcode
  · exact (tame_code hjumps (fun target params hop => hcall ⟨target, params, hop⟩) hcode).straight

theorem allStraight_prologue (frame : Nat) : AllStraight (prologue frame) := by
  simp only [prologue, all_append, all_cons, all_nil, and_true]
  exact ⟨⟨⟨⟨⟨trivial, rfl⟩, rfl⟩, ⟨trivial, rfl⟩, rfl⟩, allStraight_map_push _⟩,
    ⟨trivial, rfl⟩, rfl⟩

theorem allStraight_epilogue : AllStraight epilogue := by
  simp only [epilogue, all_append, all_cons, all_nil, and_true]
  exact ⟨⟨⟨⟨trivial, rfl⟩, rfl⟩, allStraight_map_pop _⟩, ⟨⟨trivial, rfl⟩, rfl⟩, ⟨trivial, rfl⟩, rfl⟩

end Native

end Dynarec
