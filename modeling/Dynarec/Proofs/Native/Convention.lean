import Dynarec.Proofs.Native.Executions

/-!
# The calling convention

However an execution of a function comes to the code of a call, it goes on to the instruction that
calls. There the stack is aligned, and the arguments are in the registers and on the stack where the
System V convention puts them. When the called function comes back, having kept what the convention
says, the execution goes on to the end of the code. The stack pointer is then what it was in front of it,
the variables that are needed later are in their homes, and so is the result.
-/
namespace Dynarec

namespace Native

open Machine Level Labelled CallPlan Function Homes List

variable {w : Workspace} {g : Graph} {p : Place} {i : Dynarec.Instr}
  {ls own ahead lines : List Line} {back whole : Code} {order : List Nat} {target : Option Func}
  {n room depth : Nat} {c c₀ : Cpu}

section Listing

variable {h : Homes} {next : Option Nat}

/-- Where the instruction at `p` is listed: `own` are its lines. In front of them stand the lines of
the instructions that come first in its block, and in front of those the label of the block. -/
inductive Lists (w : Workspace) (g : Graph) (h : Homes) (p : Place) (i : Dynarec.Instr)
    (lines ahead own : List Line) : Prop
  | intro {b next above inner behind} (hblock : g.blocks[p.label]? = some b)
      (hinner : instrs w g h next ⟨p.label, 0⟩ (b.instrs.take p.offset) = .ok inner)
      (hahead : ahead = above ++ .label (.block p.label) :: inner)
      (hown : instr w g h next p i = .ok own) (hlines : lines = ahead ++ own ++ behind)

theorem instrs_split {front back : List Dynarec.Instr}
    (hls : instrs w g h next p (front ++ i :: back) = .ok ls) :
    ∃ inner own behind, instrs w g h next p front = .ok inner ∧
      instr w g h next ⟨p.label, p.offset + front.length⟩ i = .ok own ∧
      ls = inner ++ own ++ behind := by
  induction front generalizing p ls with
  | nil =>
    obtain ⟨own, behind, hown, -, ⟨⟩⟩ := Except.bind₂_eq_ok.mp hls
    exact ⟨[], own, behind, rfl, hown, rfl⟩
  | cons j front ih =>
    obtain ⟨first, rest, hfirst, hrest, ⟨⟩⟩ := Except.bind₂_eq_ok.mp hls
    obtain ⟨inner, own, behind, hinner, hown, rfl⟩ := ih hrest
    refine ⟨first ++ inner, own, behind, ?_, ?_, by simp⟩
    · exact Except.bind₂_eq_ok.mpr ⟨first, inner, hfirst, hinner, rfl⟩
    · rw [← hown, Place.succ, length_cons, Nat.add_right_comm, Nat.add_assoc]

theorem blocks_split {k : Nat} (hk : k ∈ order) (hls : blocks w g h order = .ok ls) :
    ∃ next above own below, block w g h next k = .ok own ∧
      ls = above ++ .label (.block k) :: own ++ below := by
  induction order generalizing ls with
  | nil => cases hk
  | cons k' order ih =>
    obtain ⟨first, rest, hfirst, hrest, ⟨⟩⟩ := Except.bind₂_eq_ok.mp hls
    by_cases heq : k = k'
    · subst heq
      exact ⟨_, [], first, rest, hfirst, rfl⟩
    · obtain ⟨next, above, own, below, hown, rfl⟩ := ih (mem_of_ne_of_mem heq hk) hrest
      exact ⟨next, .label (.block k') :: first ++ above, own, below, hown, by simp⟩

theorem LaidOut.lists {bytes : List UInt8} (hlaid : LaidOut w g h order lines whole bytes)
    (hi : g.instrAt? p = some i) (hplaced : p.label ∈ order) :
    ∃ ahead own, Lists w g h p i lines ahead own := by
  obtain ⟨b, hb, hbi⟩ := Graph.instrAt?_eq_some.mp hi
  obtain ⟨body, hbody, ⟨⟩⟩ := Except.bind_eq_ok.mp hlaid.listed
  obtain ⟨next, above, own, below, hblock, rfl⟩ := blocks_split hplaced hbody
  obtain ⟨hlt, hget⟩ := List.getElem?_eq_some_iff.mp hbi
  have hsplit : b.instrs = b.instrs.take p.offset ++ i :: b.instrs.drop (p.offset + 1) := by
    rw [← hget, ← List.drop_eq_getElem_cons hlt, List.take_append_drop]
  rw [block, hb, Option.map_some, Option.getD_some, hsplit] at hblock
  obtain ⟨inner, own', behind, hinner, hown, rfl⟩ := instrs_split hblock
  have hlength : (b.instrs.take p.offset).length = p.offset := by
    rw [List.length_take]
    omega
  rw [hlength, Nat.zero_add] at hown
  have hlines : enclose h.frameSize
      (above ++ .label (.block p.label) :: (inner ++ own' ++ behind) ++ below) =
      (prologue h.frameSize).map .plain ++ above ++ .label (.block p.label) :: inner ++ own' ++
        (behind ++ (below ++ .label .epilogue :: epilogue.map .plain)) := by
    simp [enclose]
  exact ⟨_, own', .intro hb hinner rfl hown hlines⟩

end Listing

section Depth

variable {h : Homes} {params : List Value}

/-- The bytes that a call takes on the stack: the saved registers, the padding, the arguments on their
way, and the return address. -/
def CallPlan.bytes (P : CallPlan) : Nat :=
  8 * P.saved.length + P.drop + 8 * P.inRegs.length + 8

/-- The bytes that instruction `k` takes on the stack. -/
def callBytes (h : Homes) (k : Nat) : Op → Nat
  | .call _ params => (ofCall h k params).bytes
  | _ => 0

/-- How far the calls of a graph go below its frame. -/
def callDepth (g : Graph) (h : Homes) : Nat :=
  ((g.instrs.mapIdx fun k i => callBytes h k i.op).max?).getD 0

theorem bytes_le_callDepth (hi : g.instrAt? p = some i) (hop : i.op = .call target params) :
    (ofCall h (index g p) params).bytes ≤ callDepth g h := by
  refine List.le_max?_getD_of_mem (List.mem_mapIdx.mpr ?_)
  obtain ⟨hlt, hget⟩ := List.getElem?_eq_some_iff.mp (instrs_index hi)
  exact ⟨index g p, hlt, by rw [hget, hop]; rfl⟩

end Depth

theorem nodup_eraseDups {α : Type} [DecidableEq α] (l : List α) : l.eraseDups.Nodup := by
  induction hn : l.length using Nat.strong_induction_on generalizing l with
  | _ n ih =>
    cases l with
    | nil => simp
    | cons a l =>
      rw [eraseDups_cons, nodup_cons]
      refine ⟨by simp [mem_eraseDups], ih _ ?_ _ rfl⟩
      rw [← hn, length_cons]
      exact Nat.lt_succ_of_le (length_filter_le _ _)

/-- The lowest address of the stack of a function. -/
def stackEnd (frame depth : Nat) (sp : UInt64) : UInt64 :=
  sp - 48 - frame.toUInt64 - depth.toUInt64

/-- The stack of a function that is entered with stack pointer `sp`: the return address, the saved
registers, the frame, and below it what calls take. -/
def stackOf (frame depth : Nat) (sp : UInt64) : Set UInt64 :=
  span (stackEnd frame depth sp) (depth + frame + 56)

section Fronts

variable {h : Homes} {bytes : List UInt8}

theorem Lists.code (hlists : Lists w g h p i lines ahead own) (hfills : Fills lines whole) :
    ∃ front code back, whole = front ++ (code ++ back) ∧ Fills ahead front ∧ Fills own code := by
  obtain ⟨-, -, -, -, hlines⟩ := hlists
  rw [hlines, append_assoc] at hfills
  obtain ⟨front, rest, hwhole, hfront, hrest⟩ := hfills.append_inv
  obtain ⟨code, back, rfl, hcode, -⟩ := hrest.append_inv
  exact ⟨front, code, back, hwhole, hfront, hcode⟩

theorem drop_lt (hsmall : callDepth g h < 2 ^ 31) {params : List Value} (hi : g.instrAt? p = some i)
    (hop : i.op = .call target params) : (ofCall h (index g p) params).drop < 2 ^ 31 := by
  have hle := bytes_le_callDepth (h := h) hi hop
  unfold bytes at hle
  omega

/-- The registers that a call saves have variables in them. -/
theorem mem_pool_of_liveAcross (T : g.Typed) (hh : ofGraph g = .ok h) {k : Nat} :
    ∀ r ∈ h.liveAcross k, r ∈ pool := by
  intro r hr
  obtain ⟨-, v, -, hv, -⟩ := (mem_liveAcross T hh).mp hr
  exact (ofGraph_sound T hh).pool ((get_natCast h v).trans hv)

/-- A function that is entered in `c₀`: its code stands there, apart from the stack that it takes. -/
structure Launched (w : Workspace) (g : Graph) (h : Homes) (order : List Nat) (lines : List Line)
    (whole : Code) (bytes : List UInt8) (c₀ : Cpu) : Prop where
  homes : ofGraph g = .ok h
  laid : LaidOut w g h order lines whole bytes
  inside : ∀ k ∈ order, k < g.blocks.size
  loaded : Loaded whole c₀.rip c₀.toState
  small : callDepth g h + h.frameSize + 56 < 2 ^ 31
  apart : Disjoint (stackOf h.frameSize (callDepth g h) (c₀.regs .rsp))
    (span c₀.rip (codeLength whole))

namespace Launched

variable (T : g.Typed) (L : Launched w g h order lines whole bytes c₀)
include T L

theorem marks : (body h.frameSize).Marks .entry lines := by
  have hsmall := L.small
  exact marks_function (ofGraph_sound T L.homes).pool (mem_pool_of_liveAcross T L.homes)
    (drop_lt (by omega)) (by omega) L.inside L.laid.listed

/-- In front of an instruction the stack is as deep as in the blocks. -/
theorem sweep_eq (hlists : Lists w g h p i lines ahead own) :
    entry.sweep ahead = body h.frameSize := by
  have hmarks := L.marks T
  have hsmall := L.small
  obtain @⟨b, next, above, inner, behind, hblock, hinner, rfl, -, hlines⟩ := hlists
  rw [hlines, append_assoc, append_assoc] at hmarks
  have hinner' : ∀ (n : Nat) j, (b.instrs.take p.offset)[n]? = some j →
      g.instrAt? ⟨p.label, 0 + n⟩ = some j := by
    intro n j hj
    rw [getElem?_take] at hj
    split_ifs at hj
    exact Graph.instrAt?_eq_some.mpr ⟨b, hblock, by rwa [Nat.zero_add]⟩
  have hflat : Flat (body h.frameSize) inner :=
    flat_instrs (B := body h.frameSize) (ofGraph_sound T L.homes).pool
      (mem_pool_of_liveAcross T L.homes) (drop_lt (by omega)) hinner' hinner
  rw [sweep_append, hmarks.label, sweep_cons]
  exact hflat.ends

variable (hexec : Executes (span c₀.rip (codeLength whole)) c₀ c)
include hexec

theorem inside_of : Inside whole c₀ c :=
  hexec.inside L.laid (L.marks T) L.loaded

theorem front (hlists : Lists w g h p i lines ahead own)
    (hrip : c.rip = c₀.rip + (linesLength ahead).toUInt64) :
    (body h.frameSize).Describes (c₀.regs .rsp) c.toState ∧
      ∃ front code back, whole = front ++ (code ++ back) ∧ Fills own code ∧
        codeLength front = linesLength ahead ∧ Stands whole c₀.rip (code ++ back) c.rip := by
  obtain ⟨hload, front', j, rest, hwhole', hrip', hlevel⟩ := L.inside_of T hexec
  obtain ⟨front, code, back, hwhole, hfront, hcode⟩ := hlists.code L.laid.fills
  have hlength := hfront.codeLength_eq
  have hat : Stands whole c₀.rip (code ++ back) c.rip :=
    ⟨front, hwhole, by rw [hrip, hlength]⟩
  have heq := hat.code_eq hload ⟨front', hwhole', hrip'⟩
  rw [← heq] at hwhole'
  obtain rfl := append_cancel_right (hwhole.symm.trans hwhole')
  rw [after_of_fills hfront, L.sweep_eq T hlists] at hlevel
  exact ⟨hlevel, front, code, back, hwhole, hcode, hlength, hat⟩

end Launched

end Fronts

section Stack

variable {h : Homes} {sp a bottom : UInt64} {s : State} {P : CallPlan}

/-- In the blocks of a function the stack has room for calls. -/
theorem above_body (hsound : h.Sound g) (hsmall : depth + h.frameSize + 56 < 2 ^ 31)
    (hlevel : (body h.frameSize).Describes sp s) :
    h.Above (stackOf h.frameSize depth sp) (stackEnd h.frameSize depth sp) depth s := by
  have hrbp : s.regs .rbp = sp - 8 := by
    rw [hlevel.rbp _ rfl]
    grind
  have hframe : sp - 48 - h.frameSize.toUInt64 =
      stackEnd h.frameSize depth sp + depth.toUInt64 := by
    unfold stackEnd
    grind
  have hspan (id : Int) : (h.get id).span s ⊆
      span (stackEnd h.frameSize depth sp + depth.toUInt64) h.frameSize :=
    hframe ▸ hsound.span_subset (by omega) hrbp id
  refine ⟨⟨hsound.pool, fun {id disp n} hid => ?_⟩, ?_, span_subset_of_le (by omega), by omega,
    fun {id} => Set.disjoint_of_subset_left (hspan id) (span_disjoint_add le_rfl (by omega)).symm⟩
  · have hsub := (hspan id).trans (span_add_subset (m := depth + h.frameSize + 56) (by omega)
      (by omega))
    rw [hid] at hsub
    exact hsub
  · rw [hlevel.rsp _ rfl, ← hframe]
    grind

theorem toNat_sub_add (hle : n ≤ (a - bottom).toNat) :
    (a - (bottom + n.toUInt64)).toNat = (a - bottom).toNat - n := by
  have hlt := (a - bottom).toNat_lt
  rw [show a - (bottom + n.toUInt64) = a - bottom - n.toUInt64 by grind, UInt64.toNat_sub,
    Nat.toUInt64_eq, UInt64.toNat_ofNat']
  omega

theorem add_sub_eight (a : UInt64) (hn : 8 ≤ n) : a + n.toUInt64 - 8 = a + (n - 8).toUInt64 := by
  obtain ⟨k, rfl⟩ := Nat.exists_eq_add_of_le' hn
  rw [toUInt64_add, Nat.add_sub_cancel]
  show a + (k.toUInt64 + 8) - 8 = _
  grind

/-- Pushing the registers, the padding and the arguments keeps the stack aligned. -/
theorem aligned_call (hsp : sp.toNat % 16 = 8)
    (hdepth : depth = room + P.drop + 8 * P.saved.length) :
    (stackEnd h.frameSize depth sp + room.toUInt64).toNat % 16 = 0 := by
  have hpad : (8 * P.onStack.length + P.pad + 8 * P.saved.length) % 16 = 0 := by
    unfold pad
    split_ifs <;> omega
  have hframe : h.frameSize % 16 = 8 := by
    unfold frameSize
    omega
  have hrsp : stackEnd h.frameSize depth sp + room.toUInt64 =
      sp - (48 + h.frameSize + (P.drop + 8 * P.saved.length)).toUInt64 := by
    unfold stackEnd
    rw [hdepth, Nat.add_assoc room, toUInt64_add room, toUInt64_add (48 + h.frameSize),
      toUInt64_add 48, show (48 : Nat).toUInt64 = 48 by rfl]
    grind
  have hdrop : P.drop = 8 * P.onStack.length + P.pad := rfl
  rw [hrsp, UInt64.toNat_sub, Nat.toUInt64_eq, UInt64.toNat_ofNat']
  omega

end Stack

section Calls

/-- The processor is about to call the function at `entry`. The stack is aligned, and the arguments are
where the convention wants them: six in registers, the others on the stack from the stack pointer on.
They are the words that the parameters had in state `s`. -/
structure Conveys (h : Homes) (params : List Value) (entry : UInt64) (s : State) (c : Cpu) : Prop where
  fetch : c.fetch = some (.call .rax)
  target : c.regs .rax = entry
  aligned : (c.regs .rsp).toNat % 16 = 0
  inRegs : ∀ (k : Nat) v r, params[k]? = some v →
    [Reg.rdi, .rsi, .rdx, .rcx, .r8, .r9][k]? = some r → c.regs r = h.word s v
  onStack : ∀ (k : Nat) v, params[6 + k]? = some v →
    c.memory.read (c.regs .rsp + (8 * k).toUInt64) 8 = h.word s v

/-- A function that is called in `c` comes back in `c'`, and keeps to the convention. It leaves alone
the stack of its caller above the `args` words of its arguments, up to the return address of the caller,
which was entered with stack pointer `sp`, and it leaves the text of the caller alone. -/
structure Honours (text : Set UInt64) (sp : UInt64) (args : Nat) (c c' : Cpu) : Prop extends
    Returns c c' where
  stack : ∀ a, 8 + 8 * args ≤ (a - c.regs .rsp).toNat →
    (a - c.regs .rsp).toNat < (sp + 8 - c.regs .rsp).toNat → c'.memory a = c.memory a
  text : ∀ a ∈ text, c'.memory a = c.memory a

/-- What is left behind a call at `p` that began in state `s` and came back with `x`: the stack pointer,
the variables that are needed later, and the result in its home. -/
structure Restores (g : Graph) (h : Homes) (p : Place) (i : Dynarec.Instr) (s : State) (x : UInt64)
    (s' : State) : Prop where
  rsp : s'.regs .rsp = s.regs .rsp
  later : ∀ {q u v t}, g.DefinesAt q v t → q.Before p → g.UsesAt u v → p.Before u →
    (h.get v).word s' = (h.get v).word s
  result : i.hasResult = true → (h.get i.res).word s' = x &&& i.ty.mask

variable {h : Homes} {fn : Func} {params : List Value} {code : Code} {s s₁ : State} {sp : UInt64}

theorem Lists.call (hlists : Lists w g h p i lines ahead own) (hop : i.op = .call (some fn) params)
    (hfills : Fills own code) : Select.call h i (index g p) fn.entry params = .ok code := by
  obtain ⟨-, -, -, hown, -⟩ := hlists
  simp only [instr, hop] at hown
  obtain ⟨code', hcode, ⟨⟩⟩ := Except.bind_eq_ok.mp hown
  obtain rfl := hfills.eq_of_plain
  simpa only [Select.code, hop] using hcode

section Typed

variable (T : g.Typed) (hh : Homes.ofGraph g = .ok h) (hi : g.instrAt? p = some i)
  (hop : i.op = .call (some fn) params)
include T hh hi hop

omit hh hop in
theorem exists_target (hop : i.op = .call target params) : ∃ fn, target = some fn := by
  have hshape := T.checkShape_ok hi
  simp only [Typing.checkShape, hop] at hshape
  cases target with
  | none => cases hshape
  | some fn => exact ⟨fn, rfl⟩

theorem knows_params : ∀ v ∈ params, h.Knows v := by
  intro v hv
  cases v with
  | const t x => trivial
  | var t id =>
    obtain ⟨q, -, -, hq⟩ := T.exists_def (t := t) (v := id) hi (by simpa [hop, Op.operands] using hv)
    exact (get_ne_none_iff T hh).mpr ⟨q, t, hq⟩

omit hop in
/-- Variables that are needed behind an instruction outlive it. -/
theorem outlives (hsmall : h.frameSize + 48 < 2 ^ 31) (hrbp : s.regs .rbp = sp - 8) {q u : Place}
    {v : Int} {t : Ty} (hq : g.DefinesAt q v t) (hbefore : q.Before p) (hu : g.UsesAt u v)
    (hbehind : p.Before u) : Outlives h (ofCall h (index g p) params) i s v := by
  have hresult (hyes : i.hasResult = true) : g.DefinesAt p i.res i.ty := ⟨i, hi, hyes, rfl, rfl⟩
  refine ⟨fun r hr => ?_, fun hyes r hr hres => ?_, fun hyes => ?_⟩
  · cases hsurvives : r.survivesCall with
    | true => exact Or.inl rfl
    | false =>
      refine Or.inr ((mem_liveAcross T hh).mpr ⟨hsurvives, ?_⟩)
      exact (busy_iff T hh hi r).mpr ⟨v, q, t, u, hq, hbefore, hr, hu, hbehind⟩
  · exact not_clashes T hh hq (hresult hyes) hu hbefore hbehind (Or.inl ⟨r, hr, hres⟩)
  · refine (ofGraph_sound T hh).span_disjoint hsmall hrbp ?_
    rintro rfl
    exact Place.Before.irrefl p (T.defines_unique hq (hresult hyes) ▸ hbefore)

end Typed

section Halves

variable {bytes : List UInt8} {c₁ c₂ c₃ : Cpu} {P : CallPlan}

/-- What a called function keeps, by the convention and on the stack. -/
theorem Honours.respects {text : Set UInt64} {args : Nat}
    (hsmall : depth + h.frameSize + 56 < 2 ^ 31) (hroom : 8 ≤ room) (hle : room + 8 * args ≤ depth)
    (hrsp : c₁.regs .rsp = stackEnd h.frameSize depth sp + room.toUInt64)
    (hcode : CodeAt c₁.memory c₁.rip (.call .rax :: code)) (hstep : c₁.step = .ok c₂)
    (hhonours : Honours text sp args c₂ c₃) :
    Respects (stackOf h.frameSize depth sp) (stackEnd h.frameSize depth sp) (room + 8 * args)
      c₁.toState c₃.toState := by
  obtain ⟨-, hrsp', hsaved⟩ := hhonours.toReturns.back hcode hstep
  obtain ⟨hregs, hmemory⟩ := of_step_call hcode hstep
  have htop : c₂.regs .rsp = stackEnd h.frameSize depth sp + (room - 8).toUInt64 := by
    rw [hregs, update_self, hrsp, add_sub_eight _ hroom]
  constructor
  · intro r hr
    by_cases hne : r = .rsp
    · rw [hne, hrsp']
    · refine hsaved r ?_
      revert hr hne
      cases r <;> decide
  · intro a ha hout
    -- all addresses are counted from the end of the stack
    have hhigh : (a - stackEnd h.frameSize depth sp).toNat < depth + h.frameSize + 56 := ha
    have hlow : ¬ (a - stackEnd h.frameSize depth sp).toNat < room + 8 * args := hout
    have hend : (sp + 8 - stackEnd h.frameSize depth sp).toNat = depth + h.frameSize + 56 := by
      have hsum : sp + 8 - stackEnd h.frameSize depth sp = (depth + h.frameSize + 56).toUInt64 := by
        rw [toUInt64_add, toUInt64_add, show (56 : Nat).toUInt64 = 56 by rfl]
        unfold stackEnd
        grind
      rw [hsum, Nat.toUInt64_eq, UInt64.toNat_ofNat']
      omega
    have hkept := hhonours.stack a
    rw [htop, toNat_sub_add (by omega), toNat_sub_add (by omega), hend] at hkept
    rw [hkept (by omega) (by omega), hmemory, hrsp, add_sub_eight _ hroom]
    refine Memory.write_of_notMem (fun hin => ?_) _
    have := ((mem_span_add_iff (by omega) a).mp hin).2
    omega

/-- An execution that began the code of a call in state `s` is at the instruction that calls. -/
structure AtCall (h : Homes) (i : Dynarec.Instr) (P : CallPlan) (entry : UInt64) (depth room : Nat)
    (whole back : Code) (c₀ : Cpu) (s : State) (c : Cpu) : Prop where
  executes : Executes (span c₀.rip (codeLength whole)) c₀ c
  used : depth = room + P.drop + 8 * P.saved.length
  return_fits : 8 ≤ room
  prepares : Prepares h P entry (stackOf h.frameSize depth (c₀.regs .rsp))
    (stackEnd h.frameSize depth (c₀.regs .rsp)) room s c.toState
  stands : ∃ result, Fetches h i result ∧
    Stands whole c₀.rip (.call .rax :: (P.behind result ++ back)) c.rip

variable (T : g.Typed) (L : Launched w g h order lines whole bytes c₀) (hi : g.instrAt? p = some i)
  (hop : i.op = .call (some fn) params) (hP : P = CallPlan.ofCall h (index g p) params)
  (hlevel : (body h.frameSize).Describes (c₀.regs .rsp) c.toState)
include T L hi hop hP hlevel

/-- An execution goes through the front part of a call, up to the instruction that calls. -/
theorem Executes.to_call (hcode : Select.call h i (index g p) fn.entry params = .ok code)
    (hat : Stands whole c₀.rip (code ++ back) c.rip)
    (hexec : Executes (span c₀.rip (codeLength whole)) c₀ c) :
    ∃ n c₁ room, Cpu.run n c = .ok c₁ ∧
      AtCall h i P fn.entry (callDepth g h) room whole back c₀ c.toState c₁ := by
  obtain ⟨stackArgs, regArgs, result, hstack, hregs, hresult, rfl⟩ := call_ok hcode
  have hbytes := bytes_le_callDepth (h := h) hi hop
  have hknows := knows_params T L.homes hi hop
  have hsaved : ∀ r ∈ P.saved, r ∈ pool := hP ▸ mem_pool_of_liveAcross T L.homes
  have hin : ∀ v ∈ P.inRegs, h.Knows v := hP ▸ fun v hv => hknows v (mem_of_mem_take hv)
  have hon : ∀ v ∈ P.onStack, h.Knows v := hP ▸ fun v hv => hknows v (mem_of_mem_drop hv)
  have hfew : P.inRegs.length ≤ Reg.arguments.length := hP ▸ length_take_le _ _
  have habove := above_body (ofGraph_sound T L.homes) L.small hlevel
  rw [← hP] at hstack hregs hbytes hat
  unfold CallPlan.bytes at hbytes
  obtain ⟨room, hdepth⟩ := Nat.exists_eq_add_of_le' hbytes
  have hsplit : callDepth g h = room + 8 + 8 * P.inRegs.length + P.drop + 8 * P.saved.length := by
    omega
  rw [hsplit] at habove
  obtain ⟨s₁, hrun, hprepares⟩ := runs_before fn.entry habove hsaved hfew hin hon hstack hregs
  rw [← hsplit] at hprepares
  have hruns := hrun.append (.call .rax :: P.behind result ++ back)
  rw [append_assoc] at hat
  obtain ⟨n, b, hb, hrun', hexec'⟩ := hexec.runs hruns (L.inside_of T hexec).loaded subset_rfl
    (hprepares.moves.untouched L.apart) hat
  exact ⟨n, ⟨s₁, b⟩, room + 8 + 8 * P.inRegs.length, hrun', hexec', hsplit, by omega, hprepares,
    result, hresult, hb⟩

/-- Behind a call that kept to the convention, an execution goes on to the end of its code. -/
theorem AtCall.from_call
    (hc₁ : AtCall h i P fn.entry (callDepth g h) room whole back c₀ c.toState c₁)
    (hstep : c₁.step = .ok c₂)
    (hhonours : Honours (span c₀.rip (codeLength whole)) (c₀.regs .rsp) (params.length - 6) c₂ c₃) :
    ∃ m c₄, Cpu.run m c₃ = .ok c₄ ∧ Executes (span c₀.rip (codeLength whole)) c₀ c₄ ∧
      Stands whole c₀.rip back c₄.rip ∧
      Recovers h P i (stackOf h.frameSize (callDepth g h) (c₀.regs .rsp)) c.toState c₃.toState
        c₄.toState := by
  obtain ⟨hexec, hdepth, hroom, hprepares, result, hresult, hat⟩ := hc₁
  have hsmall := L.small
  have hload := (L.inside_of T hexec).loaded
  have hargs : P.onStack.length = params.length - 6 := hP ▸ length_drop
  have hsaved : ∀ r ∈ P.saved, r ∈ pool := hP ▸ mem_pool_of_liveAcross T L.homes
  have hnodup : P.saved.Nodup := hP ▸ nodup_eraseDups _
  have hsound := ofGraph_sound T L.homes
  have hhouses (hyes : i.hasResult = true) : h.Houses i ∧ i.ty.IsScalar :=
    ⟨hsound.houses hi hyes (by simp [hop]), (T.defines_fresh ⟨i, hi, hyes, rfl, rfl⟩).1⟩
  have habove := above_body hsound hsmall hlevel
  have hpad : 8 * P.onStack.length ≤ P.drop := Nat.le_add_right _ _
  have hcode := hat.codeAt hload
  have hrespects := hhonours.respects hsmall hroom (by omega) hprepares.rsp hcode hstep
  rw [← hargs] at hrespects
  obtain ⟨s₄, hrun, hrecovers⟩ := runs_behind hprepares hrespects (by rwa [← hdepth]) hsaved hnodup
    (by omega) hhouses hresult
  have htext : ∀ a ∈ span c₀.rip (codeLength whole), c₃.memory a = c₁.memory a := by
    intro a ha
    rw [hhonours.text a ha, (of_step_call hcode hstep).2, hprepares.rsp, add_sub_eight _ hroom]
    refine Memory.write_of_notMem (fun hin => Set.disjoint_right.mp L.apart ha ?_) _
    exact span_add_subset (by omega) (by omega) hin
  have hexec₃ := hexec.call (fetch_eq hcode ⟨trivial, rfl⟩) hstep hhonours.toReturns htext
  have hat₃ : Stands whole c₀.rip (P.behind result ++ back) c₃.rip := by
    rw [(hhonours.toReturns.back hcode hstep).1]
    exact hat.tail
  obtain ⟨m, b, hb, hrun', hexec'⟩ := hexec₃.runs (hrun.append back) (hload.congr htext) subset_rfl
    (hrecovers.moves.untouched L.apart) hat₃
  exact ⟨m, ⟨s₄, b⟩, hrun', hexec', hb, hrecovers⟩

end Halves

end Calls

section Assembled

/-- A processor about to execute code that stands in its memory, apart from the stack that it will
use. The stack is aligned as it is behind a call. -/
structure Entered (code : Assembled) (bytes : List UInt8) (depth : Nat) (c : Cpu) : Prop where
  loaded : c.memory.range c.rip code.length = bytes
  aligned : (c.regs .rsp).toNat % 16 = 8
  apart : Disjoint (stackOf code.frame depth (c.regs .rsp)) (code.text c.rip)

variable {b b' : CodeBuffer} {code : Assembled} {h : Homes}

/-- The arguments of a call stand where the convention puts them. -/
theorem AtCall.conveys {params : List Value} {entry : UInt64} {k : Nat} {s : State}
    (hc : AtCall h i (ofCall h k params) entry depth room whole back c₀ s c)
    (hsp : (c₀.regs .rsp).toNat % 16 = 8) (hload : Loaded whole c₀.rip c.toState) :
    Conveys h params entry s c := by
  obtain ⟨-, hdepth, -, hp, result, -, hat⟩ := hc
  refine ⟨fetch_eq (hat.codeAt hload) ⟨trivial, rfl⟩, hp.target, ?_, fun j v r hv hr => ?_,
    fun j v hv => ?_⟩
  · rw [hp.rsp]
    exact aligned_call hsp hdepth
  · have hlt : j < 6 := (List.getElem?_eq_some_iff.mp hr).1
    have hin : (ofCall h k params).inRegs[j]? = some v := hv ▸ getElem?_take_of_lt hlt
    have hget := congrArg (·[j]?) hp.inRegs
    rw [getElem?_map, getElem?_map, hin,
      List.getElem?_take_of_lt (List.getElem?_eq_some_iff.mp hin).1,
      show Reg.arguments[j]? = some r from hr] at hget
    exact Option.some.inj hget
  · rw [hp.rsp]
    refine hp.onStack.get ?_
    rw [getElem?_map, show (ofCall h k params).onStack[j]? = some v from
      hv ▸ getElem?_drop]
    rfl

/-- Code that was assembled is launched where it stands. -/
theorem Entered.launched (T : g.Typed) (hroom : Host.canAllocate b.capacity 1 = true)
    (hok : assemble w b g = (.ok code, b')) (hshort : code.length < 2 ^ 31)
    (hh : ofGraph g = .ok h) (hsmall : callDepth g h + code.frame + 56 < 2 ^ 31)
    (hc₀ : Entered code (b'.extract code.offset (code.offset + code.length)) (callDepth g h) c₀) :
    ∃ order lines whole, code.length = codeLength whole ∧ Launched w g h order lines whole
      (b'.extract code.offset (code.offset + code.length)) c₀ := by
  obtain ⟨h', rs, hhomes, hlayout, hframe, hne, hlength, hbytes⟩ :=
    assemble_written (inside_of_assemble hroom hok) hok
  cases hh.symm.trans hhomes
  rw [Written.code_offset hne hlayout] at hlength hbytes
  obtain ⟨lines, hlaid⟩ := laidOut_of_layout T hne hlayout (hlength ▸ hshort)
  obtain ⟨-, -, -, hinside⟩ := layout_order T hne hlayout
  have hload := hc₀.loaded
  have hapart := hc₀.apart
  rw [hbytes, hlength] at hload
  rw [hframe, Assembled.text, hlength] at hapart
  exact ⟨_, lines, _, hlength, hh, hbytes ▸ hlaid, hinside,
    ⟨hlength ▸ hshort, allRegular_written T hne hlayout 0, hload⟩, hframe ▸ hsmall,
    hapart⟩

end Assembled

theorem offsetOf_of_split {above below : List Line} {l : Label} (hnodup : (labels ls).Nodup)
    (hls : ls = above ++ .label l :: below) : linesLength above = offsetOf l ls := by
  subst hls
  induction above with
  | nil => simp [offsetOf, Line.label?]
  | cons ln above ih =>
    have hne : ln.label? ≠ some l := by
      intro hln
      rw [cons_append, labels, filterMap_cons, hln, nodup_cons] at hnodup
      exact hnodup.1 (by simp [Line.label?])
    have hrest : (labels (above ++ .label l :: below)).Nodup :=
      hnodup.sublist ((sublist_cons_self _ _).filterMap _)
    rw [linesLength_cons, ih hrest, cons_append, offsetOf, if_neg hne]

namespace Eight

def fn : Func := ⟨"f", 0x5000⟩

def params : List Value :=
  [.var .i64 0, .const .i1 1, .const .i8 2, .const .i16 3, .const .i32 4, .const .i64 5, .const .i8 6,
    .const .i64 0x123456789]

/-- A function with eight parameters gets the address of a slot, where its result goes. -/
def graph : Graph where
  blocks := #[⟨0, [⟨.alloc .i32, .i64, 0⟩, ⟨.call (some fn) params, .i32, 1⟩,
    ⟨.store (.var .i64 0) (.var .i32 1), .void, 0⟩, ⟨.exit, .void, 0⟩]⟩]
  varCount := 2

def workspace : Workspace :=
  { registers := 0, bindings := #[], capacity := ⟨0, 0, 0⟩, used := {} }

def homes : Homes := ⟨⟨#[some 0, some 1], #[2, 2]⟩, #[.slot (-44) 4, .reg .rbx], 4, 0⟩

def code : Assembled := ⟨0, 119, 24, 0⟩

def buffer : CodeBuffer :=
  (assemble workspace { capacity := 256 } graph).2

/-- The stack pointer is as it is behind a call. -/
def start : Cpu :=
  ⟨⟨fun _ => 0x8008, none, Memory.setRange (fun _ => 0) 0x1000 (buffer.extract 0 119), []⟩, 0x1000⟩

theorem assembled : assemble workspace { capacity := 256 } graph = (.ok code, buffer) :=
  Prod.ext (by cbv) rfl

theorem entered : Entered code (buffer.extract 0 119) (callDepth graph homes) start where
  loaded := by
    have hlength : (buffer.extract 0 119).length = 119 := by simp [CodeBuffer.extract]
    have hrange : start.memory.range 0x1000 (buffer.extract 0 119).length = buffer.extract 0 119 :=
      Memory.range_setRange (by rw [hlength]; decide)
    rwa [hlength] at hrange
  aligned := by decide
  apart := (span_disjoint_of_le (by decide) (by decide)).symm

theorem reachable {k : Nat} : graph.Reachable k ↔ k = 0 := by
  constructor
  · intro hk
    induction hk with
    | refl => rfl
    | tail _ hflows ih =>
      subst ih
      simp [Graph.flows_iff_sides, Graph.sides, graph, Block.tail?] at hflows
  · rintro rfl
    exact .refl

theorem lines_split {bytes : List UInt8}
    (hlaid : LaidOut workspace graph homes order lines whole bytes) :
    ∃ below, lines = (prologue 24).map .plain ++ .label (.block 0) :: below := by
  obtain rfl : order = [0] := by
    refine perm_singleton.mp ((perm_ext_iff_of_nodup hlaid.once (by simp)).mpr fun k => ?_)
    rw [hlaid.placed, reachable, mem_singleton]
  obtain ⟨body, hbody, ⟨⟩⟩ := Except.bind_eq_ok.mp hlaid.listed
  obtain ⟨first, rest, -, -, ⟨⟩⟩ := Except.bind₂_eq_ok.mp hbody
  exact ⟨_, append_assoc ..⟩

theorem ahead_length {bytes : List UInt8}
    (hlaid : LaidOut workspace graph homes order lines whole bytes)
    (hlists : Lists workspace graph homes ⟨0, 1⟩ i lines ahead own) :
    linesLength ahead = codeLength (prologue 24) := by
  obtain @⟨b, next, above, inner, behind, hblock, hinner, rfl, -, hlines⟩ := hlists
  cases hblock
  obtain rfl : [] = inner := Except.ok.inj hinner
  obtain ⟨below, hbelow⟩ := lines_split hlaid
  have habove : lines = above ++ .label (.block 0) :: (own ++ behind) := by
    rw [hlines]
    simp
  have hlength := offsetOf_of_split hlaid.distinct habove
  rw [← offsetOf_of_split hlaid.distinct hbelow, linesLength_plain] at hlength
  simpa using hlength

theorem executes (hlaid : LaidOut workspace graph homes order lines whole (buffer.extract 0 119)) :
    ∃ s, Executes (code.text start.rip) start
      ⟨s, start.rip + (codeLength (prologue 24)).toUInt64⟩ := by
  obtain ⟨below, hbelow⟩ := lines_split hlaid
  obtain ⟨front, back, hwhole, hfront, -⟩ := (hbelow ▸ hlaid.fills).append_inv
  obtain rfl := hfront.eq_of_plain
  have hcode : CodeAt start.memory start.rip (prologue 24) := by
    have hlength : code.length = codeLength (prologue 24 ++ back) := by
      rw [← hwhole, ← length_flatMap_encode, ← hlaid.encoded]
      simp [CodeBuffer.extract, code]
    have hloaded := entered.loaded
    rw [hlength, hlaid.encoded, hwhole] at hloaded
    exact (codeAt_append.mp hloaded).1
  have hload : Loaded (prologue 24) start.rip start.toState :=
    ⟨by decide, (allStraight_prologue _).regular, hcode⟩
  obtain ⟨s, hrun, -, -, -, hmoves⟩ := runs_prologue (F := stackOf 24 (callDepth graph homes) 0x8008)
    24 start.toState (span_add_subset (a := stackEnd 24 72 0x8008) (k := 96) (by decide) (by decide))
  have hin : span start.rip (codeLength (prologue 24)) ⊆ code.text start.rip :=
    span_subset_of_le (by decide)
  have hstands : Stands (prologue 24) start.rip (prologue 24) start.rip := ⟨[], rfl, rfl⟩
  obtain ⟨n, b, hb, -, hexec⟩ := Executes.enter.runs hrun hload hin
    (hmoves.untouched entered.apart) hstands
  obtain ⟨front, hfront, rfl⟩ := hb
  rw [append_nil] at hfront
  exact ⟨s, hfront ▸ hexec⟩

/-- A function that comes back at once, with a word that is too wide. -/
def comeBack (c : Cpu) : Cpu :=
  ⟨{ c.toState with
      regs := update (update c.regs .rsp (c.regs .rsp + 8)) .rax 0x100000007 },
    c.memory.read (c.regs .rsp) 8⟩

theorem honours_comeBack (text : Set UInt64) (sp : UInt64) (args : Nat) (c : Cpu) :
    Honours text sp args c (comeBack c) := by
  refine ⟨⟨rfl, rfl, fun r hr => ?_⟩, fun _ _ _ => rfl, fun _ _ => rfl⟩
  show update (update c.regs .rsp (c.regs .rsp + 8)) .rax 0x100000007 r = _
  rw [update_of_ne, update_of_ne] <;> (rintro rfl; revert hr; decide)

end Eight

theorem step_of_fetch {r : Reg} (h : c.fetch = some (.call r)) : ∃ c', c.step = .ok c' := by
  obtain ⟨⟨i, n⟩, hdecode, rfl⟩ := Option.map_eq_some_iff.mp h
  exact ⟨_, by rw [Cpu.step, hdecode]⟩

end Native

end Dynarec
