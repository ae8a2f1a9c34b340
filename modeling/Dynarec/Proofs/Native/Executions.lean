import Dynarec.Proofs.Native.Levels
import Dynarec.Proofs.Native.Refinement

/-!
# Executions of a function

A function executes instructions of its own and calls others. What those do is not known, apart from
what the convention says: they come back behind the call, with the stack pointer and the registers that
they must keep as they were. Along every such execution the processor stands in front of an instruction
of the function, and the stack is as deep there as a sweep over the code in front of it says.
-/
namespace Dynarec

open List

variable {i : Machine.Instr} {r : Reg} {a entry : UInt64} {c c' c₀ c₁ : Cpu}
  {code code' whole : Code} {w : Workspace}

namespace Machine

/-- The instruction that the processor is about to execute. -/
def Cpu.fetch (c : Cpu) : Option Instr :=
  (decode (c.memory.range c.rip Cpu.fetchSize)).map Prod.fst

def Cpu.StaysInside (c : Cpu) : Prop :=
  c.fetch ≠ some .ret ∧ ∀ r, c.fetch ≠ some (.call r)

theorem Instr.cut_eq_ret {i : Instr} (h : i.cut = .ret) : i = .ret := by
  cases i with
  | movImm | aluImm => cases h
  | _ => exact h

theorem Instr.cut_eq_call {i : Instr} (h : i.cut = .call r) : i = .call r := by
  cases i with
  | movImm | aluImm => cases h
  | _ => exact h

end Machine

namespace Native

open Machine

/-- What an execution comes to that enters a function in `c₀`, and that does not change its text. A
function that is called comes back at some time. -/
inductive Executes (text : Set UInt64) (c₀ : Cpu) : Cpu → Prop
  | enter : Executes text c₀ c₀
  | step {c c' : Cpu} (h : Executes text c₀ c) (hinside : c.StaysInside) (hstep : c.step = .ok c')
      (htext : ∀ a ∈ text, c'.memory a = c.memory a) : Executes text c₀ c'
  | call {c c₁ c' : Cpu} {r : Reg} (h : Executes text c₀ c) (hcall : c.fetch = some (.call r))
      (hstep : c.step = .ok c₁) (hreturns : Returns c₁ c')
      (htext : ∀ a ∈ text, c'.memory a = c.memory a) : Executes text c₀ c'

section Steps

theorem fetch_eq (hcode : CodeAt c.memory c.rip (i :: code)) (hreg : i.Regular) :
    c.fetch = some i.cut := by
  rw [Cpu.fetch, hcode.decode hreg]
  rfl

theorem step_call (hcode : CodeAt c.memory c.rip (.call r :: code)) :
    c.step = .ok ⟨c.push (c.rip + (Machine.Instr.call r).length.toUInt64), c.regs r⟩ := by
  rw [Cpu.step, hcode.decode ⟨trivial, rfl⟩]
  rfl

theorem writes_of_rel {rel : Int32} (hrel : i.rel? = some rel) : i.writes = [] := by
  cases i with
  | jmp | jcc => rfl
  | _ => cases hrel

theorem of_step_call (hcode : CodeAt c.memory c.rip (.call r :: code)) (hstep : c.step = .ok c') :
    c'.regs = Function.update c.regs .rsp (c.regs .rsp - 8) ∧
      c'.memory = c.memory.write (c.regs .rsp - 8) 8
        (c.rip + (Machine.Instr.call r).length.toUInt64) := by
  rw [step_call hcode] at hstep
  cases hstep
  exact ⟨rfl, rfl⟩

/-- A called function comes back behind the call, with the stack pointer as it was. -/
theorem Returns.back (hreturns : Returns c₁ c') (hcode : CodeAt c.memory c.rip (.call r :: code))
    (hstep : c.step = .ok c₁) :
    c'.rip = c.rip + (Machine.Instr.call r).length.toUInt64 ∧ c'.regs .rsp = c.regs .rsp ∧
      ∀ q ∈ Reg.rbp :: Reg.saved, c'.regs q = c.regs q := by
  obtain ⟨hregs, hmemory⟩ := of_step_call hcode hstep
  have hrsp : c₁.regs .rsp = c.regs .rsp - 8 := by rw [hregs, Function.update_self]
  refine ⟨?_, ?_, fun q hq => ?_⟩
  · rw [hreturns.rip, hrsp, hmemory]
    exact Memory.read_write_self _ _ _
  · rw [hreturns.rsp, hrsp]
    grind
  · rw [hreturns.saved q hq, hregs, Function.update_of_ne]
    rintro rfl
    exact absurd hq (by decide)

/-- What one step does: the instruction is executed, or it jumps. -/
theorem step_cases (hcode : CodeAt c.memory c.rip (i :: code)) (hreg : i.Regular)
    (hinside : c.StaysInside) (hstep : c.step = .ok c') :
    (∃ s', i.exec c.toState = .ok s' ∧ c' = ⟨s', c.rip + i.length.toUInt64⟩) ∨
      ∃ rel, i.rel? = some rel ∧ c'.toState = c.toState ∧
        (c'.rip = c.rip + i.length.toUInt64 ∨
          c'.rip = c.rip + i.length.toUInt64 + rel.toInt64.toUInt64) := by
  obtain ⟨hret, hcall⟩ := hinside
  rw [fetch_eq hcode hreg] at hret hcall
  rw [Cpu.step, hcode.decode hreg] at hstep
  have hexec {j : Machine.Instr}
      (hstep : (do return (⟨← j.exec c.toState, c.rip + i.length.toUInt64⟩ : Cpu)) = .ok c')
      (hj : j.exec c.toState = i.exec c.toState) :
      ∃ s', i.exec c.toState = .ok s' ∧ c' = ⟨s', c.rip + i.length.toUInt64⟩ := by
    obtain ⟨s', hs', hstep⟩ := Except.bind_eq_ok.mp hstep
    exact ⟨s', hj ▸ hs', (Except.ok.inj hstep).symm⟩
  cases i with
  | jmp rel =>
    cases hstep
    exact Or.inr ⟨rel, rfl, rfl, Or.inr rfl⟩
  | jcc cond rel =>
    obtain ⟨b, -, ⟨⟩⟩ := Except.bind_eq_ok.mp hstep
    cases b with
    | false => exact Or.inr ⟨rel, rfl, rfl, Or.inl rfl⟩
    | true => exact Or.inr ⟨rel, rfl, rfl, Or.inr rfl⟩
  | call r => exact absurd rfl (hcall r)
  | ret => exact absurd rfl hret
  | movImm size dst x => exact Or.inl (hexec hstep (Machine.Instr.exec_cut (.movImm size dst x) _))
  | aluImm op size dst x =>
    exact Or.inl (hexec hstep (Machine.Instr.exec_cut (.aluImm op size dst x) _))
  | _ => exact Or.inl (hexec hstep rfl)

end Steps

section Positions

variable {ls ls' : List Line} {s s' : State}

theorem Fills.append_inv (h : Fills (ls ++ ls') code) :
    ∃ front back, code = front ++ back ∧ Fills ls front ∧ Fills ls' back := by
  induction ls generalizing code with
  | nil => exact ⟨[], code, rfl, .nil, h⟩
  | cons ln ls ih =>
    cases h with
    | cons rel hrest =>
      obtain ⟨front, back, rfl, hfront, hback⟩ := ih hrest
      exact ⟨_, back, (append_assoc ..).symm, .cons rel hfront, hback⟩

theorem Fills.codeLength_eq (h : Fills ls code) : codeLength code = linesLength ls := by
  induction h with
  | nil => rfl
  | cons rel _ ih => rw [codeLength_append, Line.codeLength_code, ih, linesLength_cons]

theorem Fills.eq_of_plain (h : Fills (code'.map .plain) code) : code = code' := by
  induction code' generalizing code with
  | nil =>
    cases h
    rfl
  | cons i code' ih =>
    cases h with
    | cons rel hrest =>
      rw [ih hrest]
      rfl

theorem LaidOut.ends_ret {g : Graph} {h : Homes} {order : List Nat} {lines : List Line}
    {bytes : List UInt8} (hlaid : LaidOut w g h order lines whole bytes) :
    ∃ front, whole = front ++ [.ret] := by
  obtain ⟨body, -, ⟨⟩⟩ := Except.bind_eq_ok.mp hlaid.listed
  obtain ⟨init, hinit⟩ := getLast?_eq_some_iff.mp (getLast?_enclose h.frameSize body)
  have hfills := hlaid.fills
  rw [hinit] at hfills
  obtain ⟨front, back, hwhole, -, hback⟩ := hfills.append_inv
  obtain rfl := Fills.eq_of_plain (show Fills ([.ret].map .plain) back from hback)
  exact ⟨front, hwhole⟩

theorem length_pos (hi : i.Regular) : 0 < i.length := by
  rcases Nat.eq_zero_or_pos i.length with hzero | hpos
  · have hnone := decode_encode hi.1 []
    rw [show i.encode = [] from length_eq_zero_iff.mp hzero] at hnone
    cases hnone
  · exact hpos

theorem eq_nil_of_codeLength (hcode : ∀ i ∈ code, i.Regular) (hlength : codeLength code = 0) :
    code = [] := by
  cases code with
  | nil => rfl
  | cons i code =>
    have := length_pos (hcode i mem_cons_self)
    rw [codeLength_cons] at hlength
    omega

/-- No two instructions stand at one address. -/
theorem Stands.code_eq (hload : Loaded whole entry s) (h : Stands whole entry code a)
    (h' : Stands whole entry code' a) : code = code' := by
  obtain ⟨front, hfront, rfl⟩ := h
  obtain ⟨front', hfront', ha⟩ := h'
  have hshort := hload.short
  have hlength : codeLength front = codeLength front' := by
    have hle : codeLength front ≤ codeLength whole := by rw [hfront, codeLength_append]; omega
    have hle' : codeLength front' ≤ codeLength whole := by rw [hfront', codeLength_append]; omega
    have heq : (codeLength front).toUInt64 = (codeLength front').toUInt64 := by grind
    have hnat := congrArg UInt64.toNat heq
    rw [Nat.toUInt64_eq, Nat.toUInt64_eq, UInt64.toNat_ofNat', UInt64.toNat_ofNat'] at hnat
    omega
  rcases append_eq_append_iff.mp (hfront.symm.trans hfront') with
    ⟨skipped, rfl, hskipped⟩ | ⟨skipped, rfl, hskipped⟩
  · rw [codeLength_append] at hlength
    obtain rfl := eq_nil_of_codeLength (show ∀ i ∈ skipped, i.Regular from
      fun i hi => hload.regular i (by simp [hfront', hi])) (by omega)
    exact hskipped
  · rw [codeLength_append] at hlength
    obtain rfl := eq_nil_of_codeLength (show ∀ i ∈ skipped, i.Regular from
      fun i hi => hload.regular i (by simp [hfront, hi])) (by omega)
    exact hskipped.symm

end Positions

/-- The processor stands in front of an instruction of the function that was entered in `c₀`, and the
stack is as deep as a sweep over the code in front of it says. -/
structure Inside (whole : Code) (c₀ c : Cpu) : Prop where
  loaded : Loaded whole c₀.rip c.toState
  stands : ∃ front i back, whole = front ++ i :: back ∧
    c.rip = c₀.rip + (codeLength front).toUInt64 ∧
    (Level.entry.after front).Describes (c₀.regs .rsp) c.toState

section Invariant

variable {g : Graph} {h : Homes} {order : List Nat} {lines : List Line} {bytes : List UInt8}
  {B : Level}

theorem add_rel {pos dest : Nat} {rel : Int32} (hrel : (pos : Int) + rel.toInt = dest)
    (a : UInt64) : a + pos.toUInt64 + rel.toInt64.toUInt64 = a + dest.toUInt64 := by
  have hword : rel.toInt64.toUInt64 = UInt64.ofInt rel.toInt := by
    rw [← word_ofInt rel.le_toInt rel.toInt_lt, Int32.ofInt_toInt]
  have hlow := rel.le_toInt
  have hhigh := rel.toInt_lt
  rw [UInt64.add_assoc, hword]
  congr 1
  apply UInt64.toNat_inj.mp
  rw [UInt64.toNat_add, Nat.toUInt64_eq, Nat.toUInt64_eq, UInt64.toNat_ofNat',
    UInt64.toNat_ofNat', UInt64.ofInt, UInt64.toNat_ofNat']
  omega

theorem Inside.enter (hlaid : LaidOut w g h order lines whole bytes)
    (hload : Loaded whole c₀.rip c₀.toState) : Inside whole c₀ c₀ := by
  obtain ⟨front, hfront⟩ := hlaid.ends_ret
  obtain ⟨i, back, hwhole⟩ := exists_cons_of_ne_nil (l := whole) (by simp [hfront])
  refine ⟨hload, [], i, back, hwhole, by simp, ?_, ?_⟩
  · intro d hd
    cases hd
    simp
  · intro d hd
    cases hd

theorem Inside.next (hlaid : LaidOut w g h order lines whole bytes) {front back : Code}
    (hwhole : whole = front ++ i :: back) (hi : i ≠ .ret)
    (hrip : c.rip = c₀.rip + (codeLength front).toUInt64 + i.length.toUInt64)
    (hload : Loaded whole c₀.rip c.toState)
    (hlevel : ((Level.entry.after front).track i).Describes (c₀.regs .rsp) c.toState) :
    Inside whole c₀ c := by
  cases back with
  | nil =>
    obtain ⟨front', hret⟩ := hlaid.ends_ret
    have hlast := append_inj' (hwhole.symm.trans hret) rfl
    exact absurd (head_eq_of_cons_eq hlast.2) hi
  | cons j back =>
    refine ⟨hload, front ++ [i], j, back, by rw [hwhole, append_assoc]; rfl, ?_, ?_⟩
    · rw [hrip, codeLength_append, codeLength_cons, codeLength_nil, Nat.add_zero, toUInt64_add,
        UInt64.add_assoc]
    · rw [Level.after_append]
      exact hlevel

theorem Inside.step (hlaid : LaidOut w g h order lines whole bytes)
    (hmarks : B.Marks .entry lines) (hc : Inside whole c₀ c) (hinside : c.StaysInside)
    (hstep : c.step = .ok c')
    (htext : ∀ a ∈ span c₀.rip (codeLength whole), c'.memory a = c.memory a) :
    Inside whole c₀ c' := by
  obtain ⟨hload, front, i, back, hwhole, hrip, hlevel⟩ := hc
  have hload' := hload.congr htext
  have hat : Stands whole c₀.rip (i :: back) c.rip := ⟨front, hwhole, hrip⟩
  have hcode := hat.codeAt hload
  have hreg := hat.regular hload mem_cons_self
  have hi : i ≠ .ret := by
    rintro rfl
    exact hinside.1 (fetch_eq hcode hreg)
  rcases step_cases hcode hreg hinside hstep with
    ⟨s', hexec, rfl⟩ | ⟨rel, hrel, hstate, hrip'⟩
  · exact .next hlaid hwhole hi (by rw [hrip]) hload' (hlevel.exec hexec)
  · have hsteady : Steady i := steady_of_writes_nil (writes_of_rel hrel)
    rcases hrip' with hnext | htaken
    · refine .next hlaid hwhole hi (by rw [hnext, hrip]) hload' ?_
      rw [Level.track_of_steady _ hsteady, hstate]
      exact hlevel
    · -- The listing has one level at its jumps and its labels.
      obtain ⟨ahead, cond, l, behind, hjump, hahead, -, -, above, below, dest, rest, hlabel, hdest,
        habove, -, hne, hpos⟩ := hlaid.lands hwhole hrel
      obtain ⟨j, rest, rfl⟩ := exists_cons_of_ne_nil hne
      have hfront : Level.entry.after front = B := by
        rw [Level.after_of_fills hahead]
        exact (hjump ▸ hmarks).jump
      have hdest' : Level.entry.after dest = B := by
        rw [Level.after_of_fills habove]
        exact (hlabel ▸ hmarks).label
      refine ⟨hload', dest, j, rest, hdest, ?_, ?_⟩
      · rw [htaken, hrip, UInt64.add_assoc c₀.rip, ← toUInt64_add]
        exact add_rel (by exact_mod_cast hpos) _
      · rw [hdest', ← hfront, hstate]
        exact hlevel

/-- A call comes back behind it, at the level of the call. -/
theorem Inside.call (hlaid : LaidOut w g h order lines whole bytes) (hc : Inside whole c₀ c)
    (hcall : c.fetch = some (.call r)) (hstep : c.step = .ok c₁) (hreturns : Returns c₁ c')
    (htext : ∀ a ∈ span c₀.rip (codeLength whole), c'.memory a = c.memory a) :
    Inside whole c₀ c' := by
  obtain ⟨hload, front, i, back, hwhole, hrip, hlevel⟩ := hc
  have hat : Stands whole c₀.rip (i :: back) c.rip := ⟨front, hwhole, hrip⟩
  have hcode := hat.codeAt hload
  rw [fetch_eq hcode (hat.regular hload mem_cons_self)] at hcall
  obtain rfl := Machine.Instr.cut_eq_call (Option.some.inj hcall)
  obtain ⟨hrip', hrsp, hsaved⟩ := hreturns.back hcode hstep
  refine .next hlaid hwhole (by simp) (by rw [hrip', hrip]) (hload.congr htext) ?_
  have hrbp : c'.regs .rbp = c.regs .rbp := hsaved _ mem_cons_self
  exact ⟨fun d hd => hrsp.trans (hlevel.rsp d hd), fun d hd => hrbp.trans (hlevel.rbp d hd)⟩

/-- Control never leaves a function but by calls that come back. -/
theorem Executes.inside (hlaid : LaidOut w g h order lines whole bytes)
    (hmarks : B.Marks .entry lines) (hload : Loaded whole c₀.rip c₀.toState)
    (hexec : Executes (span c₀.rip (codeLength whole)) c₀ c) : Inside whole c₀ c := by
  induction hexec with
  | enter => exact .enter hlaid hload
  | step _ hinside hstep htext ih => exact ih.step hlaid hmarks hinside hstep htext
  | call _ hcall hstep hreturns htext ih => exact ih.call hlaid hcall hstep hreturns htext

end Invariant

section Runs

variable {text : Set UInt64} {s s' : State} {rest : Code}

theorem Moves.untouched {F : Set UInt64} (h : Moves F [] s s') (hF : Disjoint F text) :
    Untouched text s s' := by
  obtain ⟨l, hl, htraffic⟩ := h
  refine ⟨l, hl, fun e he _ => ?_⟩
  rcases htraffic.mem he with hin | hin
  · exact hF.mono_left hin
  · cases hin

theorem staysInside (hcode : CodeAt c.memory c.rip (i :: code)) (hreg : i.Regular) (hret : i ≠ .ret)
    (hcall : ∀ r, i ≠ .call r) : c.StaysInside := by
  rw [Cpu.StaysInside, fetch_eq hcode hreg]
  exact ⟨fun h => hret (Machine.Instr.cut_eq_ret (Option.some.inj h)),
    fun r h => hcall r (Machine.Instr.cut_eq_call (Option.some.inj h))⟩

/-- An execution goes through code that it stands at. -/
theorem Executes.runs (h : Runs code s rest s') (hexec : Executes text c₀ ⟨s, a⟩)
    (hload : Loaded whole entry s) (hin : span entry (codeLength whole) ⊆ text)
    (huntouched : Untouched text s s') (hat : Stands whole entry code a) :
    ∃ n b, Stands whole entry rest b ∧ Cpu.run n ⟨s, a⟩ = .ok ⟨s', b⟩ ∧
      Executes text c₀ ⟨s', b⟩ :=
  h.steps_keep (fun hexec hcode hreg hret hcall hstep htext =>
    hexec.step (staysInside hcode hreg hret hcall) hstep htext) hexec hload hin huntouched hat

end Runs

end Native

end Dynarec
