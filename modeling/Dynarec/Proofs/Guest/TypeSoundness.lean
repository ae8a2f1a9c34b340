import Dynarec.Proofs.Graph.Sweep
import Dynarec.Proofs.Guest.RegionTyping
import Dynarec.Proofs.Guest.State

/-!
# Type soundness of lifting

A graph that was lifted passes the type checker, before and after it is simplified, whatever registers
are bound and however large the arenas are. Over a bound state lifting fails only for want of room or
because its first instruction cannot be lifted, and which of the two it is can be told in advance.
The lifter never relies on a word that does not decode: a variant that stops at one never stops.
-/
namespace Dynarec

open Ty

variable {w w' : Workspace} {t : Ty} {s : State} {g : Graph}

/-- A workspace that was created, after registers were bound and arenas used. -/
inductive Workspace.Made : Workspace → Prop
  | create {registers blocks instrs params w}
      (h : Workspace.create registers blocks instrs params = .ok w) : Made w
  | bind {w w' id t name cell} (hw : Made w) (h : w.bind id t name cell = .ok w') : Made w'
  | use {w : Workspace} (hw : Made w) (used : Arenas) : Made { w with used }

theorem Workspace.Made.canAllocate (h : w.Made) :
    Host.canAllocate w.capacity.instrs 144 = true := by
  induction h with
  | @create registers blocks instrs params w h =>
    unfold Workspace.create at h
    split_ifs at h with hpos hroom
    simp only [Workspace.hasRoomFor, Bool.not_eq_true', Bool.not_eq_false, Bool.and_eq_true]
      at hroom
    cases h
    have hnat : (instrs.toNat : Int) = instrs := Int.toNat_of_nonneg (by omega)
    rw [← hnat] at hroom
    exact hroom.1.2
  | bind _ h ih =>
    obtain ⟨-, -, rfl⟩ := Workspace.bind_eq_ok h
    exact ih
  | use _ used ih => exact ih

theorem Workspace.Made.bindFrom {s : Guest.State} {ids : List Nat} (hw : w.Made)
    (h : s.bindFrom t w ids = .ok w') : w'.Made := by
  induction ids generalizing w with
  | nil =>
    obtain rfl : w = w' := by simpa [Guest.State.bindFrom] using h
    exact hw
  | cons id rest ih =>
    rw [Guest.State.bindFrom] at h
    split_ifs at h
    all_goals
      obtain ⟨w₁, hbind, hrest⟩ := Except.bind_eq_ok.mp h
      exact ih (hw.bind hbind) hrest

theorem Workspace.Made.bindState {s : Guest.State} (hw : w.Made) (h : s.bind w t = .ok w') :
    w'.Made := by
  unfold Guest.State.bind at h
  split_ifs at h
  exact hw.bindFrom (Except.mapError_eq_ok.mp h)

theorem Except.eq_ok_getD {ε α : Type} {x : Except ε α} (h : x.isOk = true) (d : α) :
    x = .ok (x.toOption.getD d) := by
  cases x with
  | ok a => rfl
  | error e => cases h

namespace Guest

open Builder Register Region

namespace State.Bound

theorem uniform (h : s.Bound t w) : w.Uniform count t := by
  intro r hr hbound
  rcases Nat.eq_zero_or_pos r with rfl | hpos
  · rw [Nat.cast_zero, h.not_isBound_zero] at hbound
    cases hbound
  · rw [h.binding hpos.ne' hr]

theorem ty_one (h : s.Bound t w) : (w.binding 1).ty = t := by
  have := h.binding Nat.one_ne_zero (by decide)
  rw [Nat.cast_one] at this
  rw [this]

end State.Bound

namespace Region

variable (l : Lifter) (c : CodeWindow)

/-- The lifting of a word that is an instruction which can stand in a delay slot. -/
def liftAt? (addr : UInt64) : Option (Build Unit) := do
  let w ← c.fetch? addr
  let m ← w.decode
  if m.control = .none then some ((setting l c).lift w m) else none

/-- Fills one block; there is no result if its delay slot cannot stand there. -/
def fill? (p : Pending) (budget count : Nat) : Build (Option Progress) := do
  setBlock p.label
  match p.delay with
  | none => return some (← follow l c budget count p.addr)
  | some slot =>
      match liftAt? l c slot with
      | none => return none
      | some lifted => do
          lifted
          return some (← follow l c budget count p.addr)

/-- Fills blocks; there is no result if one cannot be filled, or if steps run out before blocks do. -/
def fillAll? : (steps : Nat) → Progress → Build (Option Progress)
  | 0, p => do
      if p.work.isEmpty || (← get).error.isSome then return some p
      else return none
  | steps + 1, p =>
      match p.work with
      | [] => return some p
      | next :: rest => do
          if (← get).error.isSome then return some p
          else
            match ← fill? l c next p.budget p.count with
            | none => return none
            | some q => fillAll? steps { q with work := q.work ++ rest }

variable {l c}

theorem fill?_eq {p : Pending} (hp : Fillable l c p) (budget count : Nat) (b : Builder) :
    fill? l c p budget count b =
      (some (fill l c p budget count b).1, (fill l c p budget count b).2) := by
  unfold fill? fill
  simp only [bind_apply]
  cases hdelay : p.delay with
  | none => rfl
  | some a =>
    obtain ⟨slot, hslot, hplain⟩ := hp a hdelay
    obtain ⟨hfetch, hdecode, -⟩ := decode?_eq_some.mp hslot
    have hlift : liftAt? l c a = some ((setting l c).lift slot.2 slot.1) := by
      simp [liftAt?, hfetch, hdecode, hplain]
    simp only [hlift, liftAt_eq hslot]
    rfl

/-- Filling blocks never meets a delay slot that cannot stand there, and never runs out of steps. -/
theorem fillAll?_eq {steps : Nat} {p : Progress} (hp : Feasible l c steps p) (b : Builder) :
    fillAll? l c steps p b = (some (fillAll l c steps p b).1, (fillAll l c steps p b).2) := by
  induction steps generalizing p b with
  | zero =>
    have hnil : p.work = [] := List.eq_nil_of_length_eq_zero (by have := hp.steps; omega)
    simp only [fillAll?, hnil]
    rfl
  | succ steps ih =>
    cases hwork : p.work with
    | nil =>
      rw [fillAll_nil hwork]
      simp only [fillAll?, hwork]
      rfl
    | cons next rest =>
      rw [fillAll?]
      simp only [hwork]
      rw [bind_apply, get_apply]
      cases he : b.error with
      | some e =>
        rw [fillAll_of_error p _ (by simp [he]), if_pos (by simp)]
        rfl
      | none =>
        rw [fillAll_cons hwork steps he, if_neg (by simp), bind_apply,
          fill?_eq (hp.fillable next (by simp [hwork]))]
        exact ih (hp.next hwork b) _

/-- Leaving takes two instructions where the program counter is bound. -/
theorem leave_error (hw : c.width = i32 ∨ c.width = i64) {w : Terms} {left : Allowance} {k : Nat}
    {b : Builder} (hb : (site c w [] k).Ready (left.plus 0 1 0) [] b)
    (hpc : (w.space.binding pc).isBound = true)
    (hty : (w.space.binding pc).ty = c.width) (addr : UInt64) :
    (leave c addr b).2.error = none ↔ b.space.used.instrs + 2 ≤ b.space.capacity.instrs := by
  have hat : (setting {} c).At (site c w [] k) := setting_at hw
  have hbinding : b.space.binding pc = w.space.binding pc := by
    simp only [Workspace.binding, hb.bindings, site]
  set x := Value.lit c.width addr
  have hx : ∀ v ∈ Op.operands (.write pc x), ∃ u, v.Known [] u :=
    Site.known_singleton (hat.known_lit addr)
  have hwrite : (write pc x b).2 = (emit (.write pc x) void b).2 := by
    have hx : x.ty = c.width := rfl
    simp only [write, hbinding, hpc, hty, hx, Bool.not_true, Bool.false_eq_true, if_false, ne_eq,
      not_true_eq_false]
    rfl
  have hleave : (leave c addr b).2 = (emit .exit void (write pc x b).2).2 := rfl
  rw [hleave, hwrite]
  rcases emit_cases (.write pc x) void hb.error with
    ⟨hterm, -⟩ | ⟨hfull, heq⟩ | ⟨k', hk', -, hroom, heq⟩
  · rw [hb.isTerminated] at hterm
    cases hterm
  · rw [heq, emit_of_error rfl]
    simp only [reduceCtorEq, false_iff]
    omega
  · obtain rfl : k = k' := Option.some.inj (hb.current.symm.trans hk')
    rw [heq]
    set b' := b.push k (b.numbered (.write pc x) void)
    have hready : (site c w [] k).Ready left [] b' :=
      ((hb.push hx rfl (by rintro ⟨⟩) (by simp) hpc hroom).2 rfl).1
    have hused : b'.space.used.instrs = b.space.used.instrs + 1 := rfl
    have hcap : b'.space.capacity.instrs = b.space.capacity.instrs := rfl
    rcases emit_cases .exit void hready.error with
      ⟨hterm, -⟩ | ⟨hfull, heq'⟩ | ⟨k', -, -, hroom', heq'⟩
    · rw [hready.isTerminated] at hterm
      cases hterm
    · rw [heq']
      simp only [reduceCtorEq, false_iff]
      omega
    · rw [heq']
      have : (b'.push k' (b'.numbered .exit void)).error = none := hready.error
      simp only [this, true_iff]
      omega

end Region

namespace Lifter

variable (l : Lifter) (space : Workspace) (addr : UInt64) (code : List UInt8)

def window : CodeWindow :=
  let width := (space.binding 1).ty
  ⟨width, addr &&& width.mask, code.toArray⟩

/-- The first block is to be filled. -/
def outset : Progress :=
  { budget := l.budget, work := [⟨0, (window space addr code).start, none⟩] }

/-- The progress and the builder when no block is left. -/
def filled : Progress × Builder :=
  fillAll l (window space addr code) (l.budget + 1) (l.outset space addr code)
    (start space)

/-- What is handed out when no block is left. -/
def handOut (p : Progress) (b : Builder) : Except LiftError Graph × Workspace :=
  let c := window space addr code
  match b.finish with
  | .error e => (.error (.build e), b.space)
  | .ok g =>
      if p.count = 0 then
        (.error (.unsupported c.start ((c.fetch? c.start).getD ⟨0⟩)), b.space)
      else (.ok g, b.space)

theorem lift_eq : l.lift space addr code =
    let width := (space.binding 1).ty
    if width ≠ i32 ∧ width ≠ i64 then (.error (.width width), space)
    else handOut space addr code (l.filled space addr code).1 (l.filled space addr code).2 := rfl

/-- Lifting that stops, without a result, at a delay slot that does not decode to an instruction which
can stand there, or when it runs out of steps. -/
def lift? : Option (Except LiftError Graph × Workspace) :=
  let width := (space.binding 1).ty
  if width ≠ i32 ∧ width ≠ i64 then some (.error (.width width), space)
  else
    let (p, b) := fillAll? l (window space addr code) (l.budget + 1)
      (l.outset space addr code) (start space)
    p.map fun p => handOut space addr code p b

theorem outset_feasible : Feasible l (window space addr code) (l.budget + 1)
    (l.outset space addr code) := by
  refine ⟨?_, fun q hq => ?_⟩
  · simp only [outset, List.length_singleton]
    omega
  · rw [List.mem_singleton.mp hq]
    rintro a ⟨⟩

theorem lift?_eq : l.lift? space addr code = some (l.lift space addr code) := by
  rw [lift_eq, lift?]
  dsimp only
  split_ifs
  · rfl
  · rw [fillAll?_eq (l.outset_feasible space addr code)]
    rfl

/-- What a region may take of the arenas: what its budget pays for, the first block and leaving it. -/
def terms : Terms :=
  ⟨space, l.exception, ⟨2 * l.budget + 1, 14 * l.budget + 2, l.budget + 2⟩⟩

theorem opened_start :
    (space.capacity.blocks ≤ space.used.blocks ∧ (start space).space = space ∧
      (start space).error = some (.blocksFull space.capacity.blocks)) ∨
    Opened (l.terms space) (funded {} (l.outset space addr code).budget) []
      (l.outset space addr code).work (start space) := by
  rcases underway_start space l.exception ⟨2 * l.budget, 14 * l.budget + 2, l.budget + 2⟩ with
    hfull | ⟨-, -, hunder⟩
  · exact Or.inl hfull
  · have hstart : Underway (l.terms space) ⟨2 * l.budget, 14 * l.budget + 2, l.budget + 2⟩ [⟨0, []⟩] none
        (start space) := hunder
    refine Or.inr ⟨[⟨0, []⟩], rfl, hstart.of_le ?_ ?_ ?_⟩
    all_goals simp [outset, Allowance.plus, Pending.cost]

section Width

variable {space} (hw : (space.binding 1).ty = Ty.i32 ∨ (space.binding 1).ty = Ty.i64)
include hw

theorem lift_of_width : l.lift space addr code =
    handOut space addr code (l.filled space addr code).1 (l.filled space addr code).2 := by
  rw [lift_eq]
  dsimp only
  rw [if_neg]
  rintro ⟨h₃₂, h₆₄⟩
  exact hw.elim h₃₂ h₆₄

/-- When no block is left the graph is finished, or an arena was full, or registers are bound at
different widths. -/
theorem filled_finishes :
    (site (window space addr code) (l.terms space) [] 0).Stuck (l.filled space addr code).2 ∨
      Underway (l.terms space) {} [] none (l.filled space addr code).2 := by
  rcases l.opened_start space addr code with ⟨hfull, hspace, he⟩ | hopened
  · have hfilled : l.filled space addr code = (l.outset space addr code, start space) :=
      fillAll_of_error _ _ (by simp [he])
    have hleaves : (l.terms space).Leaves {} (start space).space.used := by
      rw [hspace]
      exact ⟨Nat.le_add_right _ _, Nat.le_add_right _ _, 0, rfl, Nat.zero_le _⟩
    rw [hfilled]
    refine Or.inl ⟨_, he, hleaves, Or.inl ⟨trivial, fun hfits => ?_⟩⟩
    have hblocks := hfits.blocks
    simp only [site, terms] at hblocks
    omega
  · have hfinish := fillAll_finishes (c := window space addr code) hw rfl
      (l.outset_feasible space addr code) hopened
    exact hfinish.imp_right And.right

end Width

/-- The arenas have room for a block that is left at once. -/
def SufficesToLeave (space : Workspace) : Prop :=
  space.used.blocks + 1 ≤ space.capacity.blocks ∧ space.used.instrs + 2 ≤ space.capacity.instrs

theorem filled_eq {space : Workspace} (he : (start space).error = none)
    {q : Progress × Builder} (hq : q = fill l (window space addr code)
      ⟨0, (window space addr code).start, none⟩ l.budget 0 (start space)) :
    l.filled space addr code = fillAll l (window space addr code) l.budget q.1 q.2 ∧
      Feasible l (window space addr code) l.budget q.1 := by
  have hcons := fillAll_cons (l := l) (c := window space addr code)
    (p := l.outset space addr code) rfl l.budget he
  have hnext := (l.outset_feasible space addr code).next rfl (start space)
  rw [List.append_nil] at hcons hnext
  rw [hq]
  exact ⟨hcons, hnext⟩

theorem filled_of_not_liftable {space : Workspace} (he : (start space).error = none)
    (hb : (setBlock 0 (start space)).2.error = none)
    (hl : ¬ Liftable l (window space addr code) l.budget (window space addr code).start) :
    l.filled space addr code = ({ budget := l.budget, count := 0 },
      (leave (window space addr code) (window space addr code).start
        (setBlock 0 (start space)).2).2) := by
  have hleave := follow_eq_build l (window space addr code) hb l.budget 0
    (window space addr code).start
  rw [(move_eq_stop_iff l _ l.budget _).mpr hl] at hleave
  rw [(l.filled_eq addr code he rfl).1, fill_eq, entered, hleave]
  exact fillAll_nil rfl _ _

/-- Over a bound state no instruction is lifted, and nothing else goes wrong, just if the arenas have
room to leave at once and the first instruction cannot be lifted. -/
theorem filled_count_eq_zero_iff (hs : s.Bound t space) :
    (l.filled space addr code).2.error = none ∧ (l.filled space addr code).1.count = 0 ↔
      SufficesToLeave space ∧
        ¬ Liftable l (window space addr code) l.budget (window space addr code).start := by
  set c := window space addr code with hc
  have hone := hs.ty_one
  have hwidth : c.width = t := hone
  have hw : c.width = i32 ∨ c.width = i64 := hwidth ▸ hs.width
  have hpc := hs.binding (show pc ≠ 0 by decide) (by decide)
  rcases underway_start space l.exception (Allowance.plus {} 0 1 0) with
    ⟨hfull, -, he⟩ | ⟨hroom, hused, hunder⟩
  · have hfilled : l.filled space addr code = (l.outset space addr code, start space) :=
      fillAll_of_error _ _ (by simp [he])
    rw [hfilled, he]
    simp only [reduceCtorEq, false_and, SufficesToLeave, false_iff]
    omega
  · have hready : (site c _ [] 0).Ready (Allowance.plus {} 0 1 0) []
        (setBlock 0 (start space)).2 := hunder.setBlock count c.width
    by_cases hl : Liftable l c l.budget c.start
    · set q := fill l c ⟨0, c.start, none⟩ l.budget 0 (start space) with hq
      have hpos : 0 < q.1.count := by
        rw [hq, fill_eq]
        exact (follow_advanced l.budget 0 c.start _).2 hready.error hl
      have hcount := (fillAll_count (l := l) (c := c) l.budget q.1 q.2).1
      rw [← (l.filled_eq addr code hunder.error hq).1] at hcount
      simp only [hl, not_true_eq_false, and_false, iff_false]
      omega
    · have hspace : (setBlock 0 (start space)).2.space = (start space).space := by
        have := setBlock_apply (b := start space) (k := 0) hunder.error
          (Nat.pos_of_ne_zero hunder.root)
        rw [Nat.cast_zero] at this
        rw [this]
      have herror := leave_error hw hready (hs.isBound (by decide) (by decide))
        (by rw [hpc, hwidth]) c.start
      rw [l.filled_of_not_liftable addr code hunder.error hready.error hl]
      simp only [← hc, herror, hspace, hused, hunder.capacity, SufficesToLeave, hl, not_false_eq_true,
        and_true]
      omega

/-- What is handed out is the graph of a builder in which no block waits. -/
theorem underway_of_lift {space} (hg : (l.lift space addr code).1 = .ok g) :
    ((space.binding 1).ty = i32 ∨ (space.binding 1).ty = i64) ∧
      Underway (l.terms space) {} [] none (l.filled space addr code).2 ∧
      g = (l.filled space addr code).2.graph ∧ (l.filled space addr code).1.count ≠ 0 ∧
      (l.lift space addr code).2 = (l.filled space addr code).2.space := by
  by_cases hw : (space.binding 1).ty = i32 ∨ (space.binding 1).ty = i64
  · rw [lift_of_width l addr code hw, handOut] at hg ⊢
    rcases l.filled_finishes addr code hw with ⟨e, he, -⟩ | hunder
    · simp [finish, he] at hg
    · simp only [finish, hunder.error] at hg ⊢
      split_ifs at hg ⊢ with hcount
      exact ⟨hw, hunder, (Except.ok.inj hg).symm, hcount, rfl⟩
  · rw [not_or] at hw
    rw [lift_eq] at hg
    dsimp only at hg
    rw [if_pos hw] at hg
    cases hg

theorem liftable_of_lift (hg : (l.lift space addr code).1 = .ok g) :
    Liftable l (window space addr code) l.budget (window space addr code).start := by
  by_contra hl
  obtain ⟨-, -, -, hcount, -⟩ := l.underway_of_lift addr code hg
  have herror : (start space).error = none := by
    by_contra he
    have hfilled : l.filled space addr code = (l.outset space addr code, start space) :=
      fillAll_of_error _ _ (Option.isSome_iff_ne_none.mpr he)
    rw [hfilled] at hcount
    exact hcount rfl
  rcases underway_start space l.exception {} with ⟨-, -, he⟩ | ⟨-, -, hunder⟩
  · rw [herror] at he
    cases he
  · have hready : (site (window space addr code) _ [] 0).Ready {} []
        (setBlock 0 (start space)).2 := hunder.setBlock count _
    rw [l.filled_of_not_liftable addr code herror hready.error hl] at hcount
    exact hcount rfl

section Bound

variable {space} (hs : s.Bound t space)
include hs

/-- Why lifting over a bound state fails. -/
theorem lift_error {e : LiftError}
    (he : (l.lift space addr code).1 = .error e) :
    (e.report.fault = some .capacityExceeded ∧ (l.filled space addr code).2.error ≠ none) ∨
      (e.report.fault = some .unsupportedInstruction ∧
        (l.filled space addr code).2.error = none ∧ (l.filled space addr code).1.count = 0) := by
  have hone := hs.ty_one
  have hw : (space.binding 1).ty = i32 ∨ (space.binding 1).ty = i64 := hone ▸ hs.width
  rw [lift_of_width l addr code hw, handOut] at he
  cases herror : (l.filled space addr code).2.error with
  | some e' =>
    simp only [finish, herror] at he
    obtain rfl := Except.error.inj he
    refine Or.inl ⟨?_, by simp⟩
    rcases l.filled_finishes addr code hw with ⟨e'', he'', -, hcause⟩ | hunder
    · cases herror.symm.trans he''
      have hcapacity : e'.IsCapacity := by
        refine (hcause.resolve_right (not_not.mpr ?_)).1
        change space.Uniform count (space.binding 1).ty
        rw [hone]
        exact hs.uniform
      cases e' with
      | blocksFull | instrsFull | paramsFull => rfl
      | _ => cases hcapacity
    · rw [hunder.error] at herror
      cases herror
  | none =>
    simp only [finish, herror] at he
    split_ifs at he with hcount
    obtain rfl := Except.error.inj he
    exact Or.inr ⟨rfl, rfl, hcount⟩

theorem lift_unsupported_iff :
    (∃ e, (l.lift space addr code).1 = .error e ∧
      e.report.fault = some .unsupportedInstruction) ↔
      (l.filled space addr code).2.error = none ∧ (l.filled space addr code).1.count = 0 := by
  have hw : (space.binding 1).ty = i32 ∨ (space.binding 1).ty = i64 := by
    rw [hs.ty_one]
    exact hs.width
  constructor
  · rintro ⟨e, he, hfault⟩
    rcases l.lift_error addr code hs he with ⟨hcapacity, -⟩ | ⟨-, hcount⟩
    · rw [hfault] at hcapacity
      cases hcapacity
    · exact hcount
  · rintro ⟨herror, hcount⟩
    rw [lift_of_width l addr code hw, handOut]
    simp only [finish, herror, hcount, if_true]
    exact ⟨_, rfl, rfl⟩

end Bound

/-- What lifting hands out passes the type checker, before and after it is simplified. -/
theorem lift_typecheck {space : Workspace} (hspace : space.Made)
    (hg : (l.lift space addr code).1 = .ok g) :
    g.typecheck = .accepted ∧ g.sweep.2 = true ∧ g.simplify.typecheck = .accepted := by
  have hroom := hspace.canAllocate
  obtain ⟨-, hunder, rfl, -⟩ := l.underway_of_lift addr code hg
  have hcount := hunder.varCount
  simp only [terms, Host.canAllocate, Bool.and_eq_true, decide_eq_true_eq] at hroom hcount
  have haccepted := hunder.typecheck (show Host.canAllocate space.capacity.instrs 8 = true by
    simp only [Host.canAllocate, Bool.and_eq_true, decide_eq_true_eq]
    omega)
  obtain ⟨hsimplified, hswept⟩ := Graph.typecheck_simplify haccepted
  refine ⟨haccepted, hswept ?_, hsimplified⟩
  simp only [Graph.hasRoomFor, Host.canAllocate, Bool.and_eq_true, decide_eq_true_eq]
  omega

/-- Lifting is type sound. Over a bound state it also never stops half way, fails only for want of
room or over an instruction that cannot be lifted, and the latter just if there was room and nothing
was lifted. -/
theorem lift_sound (l : Lifter) (addr : UInt64) (code : List UInt8) :
    (∀ space : Workspace, space.Made → ∀ g, (l.lift space addr code).1 = .ok g →
      g.typecheck = .accepted ∧ g.sweep.2 = true ∧ g.simplify.typecheck = .accepted) ∧
    ∀ (s : State) (t : Ty) (w₀ w : Workspace) (used : Arenas), s.bind w₀ t = .ok w →
      let space := { w with used }
      let c := window space addr code
      l.lift? space addr code = some (l.lift space addr code) ∧
      (∀ e, (l.lift space addr code).1 = .error e →
        e.report.fault = some .capacityExceeded ∨
          e.report.fault = some .unsupportedInstruction) ∧
      ((∃ e, (l.lift space addr code).1 = .error e ∧
          e.report.fault = some .unsupportedInstruction) ↔
        (l.filled space addr code).2.error = none ∧ (l.filled space addr code).1.count = 0) ∧
      ((l.filled space addr code).2.error = none ∧ (l.filled space addr code).1.count = 0 ↔
        SufficesToLeave space ∧ ¬ Region.Liftable l c l.budget c.start) := by
  refine ⟨fun space hspace g hg => l.lift_typecheck addr code hspace hg, ?_⟩
  intro s t w₀ w used hbind space c
  have hw := (State.bind_eq_ok hbind).1
  have hs : s.Bound t space := ⟨hw.width, hw.zero, hw.binding, hw.cell⟩
  refine ⟨l.lift?_eq space addr code, fun e he => ?_, l.lift_unsupported_iff addr code hs,
    l.filled_count_eq_zero_iff space addr code hs⟩
  exact (l.lift_error addr code hs he).imp And.left And.left

def smallSpace : Workspace :=
  { registers := count, capacity := ⟨8, 64, 4⟩, used := {} }

theorem smallSpace_made : smallSpace.Made := by
  have h : Workspace.create count 8 64 4 = .ok smallSpace := rfl
  exact .create h

/-- The workspace with a state bound at 64 bits. -/
def boundSpace : Workspace :=
  (State.bind ⟨0x1000⟩ smallSpace i64).toOption.getD smallSpace

theorem bind_smallSpace : State.bind ⟨0x1000⟩ smallSpace i64 = .ok boundSpace :=
  Except.eq_ok_getD (by decide +kernel) smallSpace

/-- A likely branch, its delay slot, and a system call on the side that is not taken. -/
def likelyCode : List UInt8 :=
  Word.toBytes [.ofI 20 1 2 0xffff, .ofI 9 1 2 5, .ofR 0 0 0 0 0 12]

theorem lift_sound_likely :
    let l : Lifter := { maxInstructions := 5, exception := some ⟨"exception", 0⟩ }
    boundSpace.Made ∧ State.bind ⟨0x1000⟩ smallSpace Ty.i64 = .ok boundSpace ∧
      (∃ g, (l.lift boundSpace 0x400 likelyCode).1 = .ok g ∧ g.typecheck = .accepted ∧
        g.sweep.2 = true ∧ g.simplify.typecheck = .accepted) ∧
      l.lift? boundSpace 0x400 likelyCode = some (l.lift boundSpace 0x400 likelyCode) := by
  intro l
  have hmade : boundSpace.Made := smallSpace_made.bindState bind_smallSpace
  obtain ⟨g, hg⟩ : ∃ g, (l.lift boundSpace 0x400 likelyCode).1 = .ok g :=
    ⟨_, Except.eq_ok_getD (by decide +kernel) Graph.empty⟩
  obtain ⟨htyped, hbound⟩ := lift_sound l 0x400 likelyCode
  have hlift? : ∀ w, State.bind ⟨0x1000⟩ smallSpace Ty.i64 = .ok w →
      l.lift? w 0x400 likelyCode = some (l.lift w 0x400 likelyCode) :=
    fun w hw => (hbound ⟨0x1000⟩ Ty.i64 smallSpace w w.used hw).1
  exact ⟨hmade, bind_smallSpace, ⟨g, hg, htyped boundSpace hmade g hg⟩,
    hlift? boundSpace bind_smallSpace⟩

end Lifter

end Guest

end Dynarec
