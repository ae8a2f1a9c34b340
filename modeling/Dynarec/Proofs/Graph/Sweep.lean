import Dynarec.Graph.Simplify
import Dynarec.Proofs.Graph.Typing

/-!
# The sweep on checked graphs

On a graph that the type checker accepts the sweep never stops early, and what it keeps is well typed
again: the value that stands for a variable has its type and may be used wherever the variable may. The
invariant `Sweep.Sound` relates the table of definitions of the old graph to that of the new one.
-/
namespace Dynarec

open Typing Sweep List Array

variable {op : BinOp} {us vs : List Value} {t : Ty} {u v x y : Value} {is is' : List Instr}
  {i i' : Instr} {idoms : Idoms} {defs last defs' : Defs} {j k count label : Nat} {n : Int}
  {s s' : Sweep} {kept : Option Instr} {bs bs' : List Block} {p : Nat × Ty}

namespace Op

theorem operands_withOperands {op : Op} (h : vs.length = op.operands.length) :
    (op.withOperands vs).operands = vs := by
  cases op with
  | call target ps => rfl
  | exit | alloc slot | read reg | unknown tag => simpa [operands, withOperands] using (length_eq_zero_iff.mp h).symm
  | assert c | br c f t | not x | load a | write reg x | cvt op x => obtain ⟨x, rfl⟩ := length_eq_one_iff.mp h; rfl
  | binop op x y | icmp op x y | store a x => obtain ⟨x, y, rfl⟩ := length_eq_two.mp h; rfl

theorem isTerminator_withOperands (op : Op) (vs : List Value) :
    (op.withOperands vs).isTerminator = op.isTerminator := by
  unfold withOperands
  split <;> rfl

theorem br_of_withOperands {op : Op} {f t : Int} (h : op.withOperands vs = br x f t) :
    ∃ c, op = br c f t := by
  unfold withOperands at h
  split at h <;> simp_all

end Op

namespace Instr

/-- `i'` is `i` with other operands of the same types, and possibly another number. -/
def Rewrites (i i' : Instr) : Prop :=
  ∃ vs n, vs.map Value.ty = i.op.operands.map Value.ty ∧ i' = ⟨i.op.withOperands vs, i.ty, n⟩

theorem hasResult_withOperands (op : Op) (vs : List Value) (t : Ty) (n m : Int) :
    hasResult ⟨op.withOperands vs, t, n⟩ = hasResult ⟨op, t, m⟩ := by
  unfold Op.withOperands
  split <;> rfl

theorem Rewrites.hasResult_eq (h : i.Rewrites i') : i'.hasResult = i.hasResult := by
  obtain ⟨vs, n, -, rfl⟩ := h
  exact hasResult_withOperands i.op vs i.ty n i.res

theorem Rewrites.isTerminator_eq (h : i.Rewrites i') : i'.isTerminator = i.isTerminator := by
  obtain ⟨vs, n, -, rfl⟩ := h
  exact i.op.isTerminator_withOperands vs

theorem map_ty_eq_pair {u : Ty} (h : vs.map Value.ty = [t, u]) :
    ∃ x y, vs = [x, y] ∧ x.ty = t ∧ y.ty = u := by
  obtain ⟨x, vs', rfl, hx, hrest⟩ := map_eq_cons_iff.mp h
  obtain ⟨y, rfl, hy⟩ := map_eq_singleton_iff.mp hrest
  exact ⟨x, y, rfl, hx, hy⟩

theorem Rewrites.checkShape_eq (h : i.Rewrites i') :
    checkShape i' = checkShape i := by
  obtain ⟨vs, n, hty, rfl⟩ := h
  obtain ⟨op, t, m⟩ := i
  cases op with
  | exit | call target ps | alloc slot | read reg | unknown tag => rfl
  | assert c | br c f t | not c | load a | cvt op c =>
    obtain ⟨x, rfl, hx⟩ := map_eq_singleton_iff.mp hty
    simp only [Op.withOperands, checkShape, hx]
  | write reg c =>
    obtain ⟨x, rfl, -⟩ := map_eq_singleton_iff.mp hty
    rfl
  | binop op c d | icmp op c d =>
    obtain ⟨x, y, rfl, hx, hy⟩ := map_ty_eq_pair hty
    simp only [Op.withOperands, checkShape, hx, hy]
  | store a d =>
    obtain ⟨x, y, rfl, hx, -⟩ := map_ty_eq_pair hty
    simp only [Op.withOperands, checkShape, hx]

end Instr

namespace Value

theorem usable_lit (h : t.IsScalar) (x : UInt64) : Usable idoms defs label (lit t x) :=
  ⟨h, t.fits_and_mask x⟩

end Value

namespace Typing

/-- What may be used in a block may be used in the blocks it dominates. -/
theorem Usable.of_dominates {a b : Nat} (h : Usable idoms defs a v)
    (hab : idoms.dominates a b = true) : Usable idoms defs b v := by
  cases v with
  | const t x => exact h
  | var t id =>
    obtain ⟨ht, at_, he, hd⟩ := h
    exact ⟨ht, at_, he, Idoms.dominates_trans hd hab⟩

theorem Usable.of_extends (h : Usable idoms defs label v) (he : Extends k defs defs') :
    Usable idoms defs' label v := by
  cases v with
  | const t x => exact h
  | var t id =>
    obtain ⟨ht, at_, hid, hd⟩ := h
    obtain ⟨hnat, hentry⟩ := entryAt?_eq_some hid
    refine ⟨ht, at_, ?_, hd⟩
    rw [hnat, entryAt?_natCast]
    exact he.keep hentry

end Typing

namespace Sweep

/-- `u` is what the sweep puts in the place of `v`. -/
def Replaces (s : Sweep) : Value → Value → Prop
  | .const t x, u => u = .const t x
  | .var _ id, u => entryAt? s.subst id = some u

/-- The sweep is in front of an instruction of block `label`. `defs` has the definitions of the old
graph so far and `defs'` those of the new one, whose next variable is `s.next`. -/
structure Sound (idoms : Idoms) (label : Nat) (defs defs' : Defs) (s : Sweep) : Prop where
  size : s.subst.size = defs.size
  fresh : ∀ n, s.next ≤ n → n < defs'.size → defs'[n]? = some none
  value : ∀ {v : Nat} {d t}, defs[v]? = some (some (d, t)) →
    ∃ u, s.subst[v]? = some u ∧ u.ty = t ∧ Usable idoms defs' d u
  known : ∀ {r u}, s.known.lookup r = some u → Usable idoms defs' label u

theorem Sound.replace (h : Sound idoms label defs defs' s) (hv : Usable idoms defs label v) :
    ∃ u, s.Replaces v u ∧ u.ty = v.ty ∧ Usable idoms defs' label u := by
  cases v with
  | const t x => exact ⟨.const t x, rfl, rfl, hv⟩
  | var t id =>
    obtain ⟨-, at_, hid, hdom⟩ := hv
    obtain ⟨hnat, hentry⟩ := entryAt?_eq_some hid
    obtain ⟨u, hu, hty, huse⟩ := h.value hentry
    refine ⟨u, ?_, hty, huse.of_dominates hdom⟩
    rw [Replaces, hnat, entryAt?_natCast]
    exact hu

theorem substitute_cons (hv : s.Replaces v u) (hvs : s.substitute vs = (us, true)) :
    s.substitute (v :: vs) = (u :: us, true) := by
  cases v with
  | const t x =>
    rw [Replaces] at hv
    simp [substitute, hvs, hv]
  | var t id =>
    rw [Replaces] at hv
    simp [substitute, hv, hvs]

theorem forall₂_substitute (h : s.substitute vs = (us, true)) : Forall₂ s.Replaces vs us := by
  induction vs generalizing us with
  | nil =>
    cases h
    exact .nil
  | cons v vs ih =>
    cases v with
    | const t x =>
      obtain ⟨rfl, hok⟩ := Prod.mk.inj h
      exact .cons rfl (ih (Prod.ext rfl hok))
    | var t n =>
      simp only [substitute] at h
      split at h
      · simp at h
      · rename_i w hw
        obtain ⟨rfl, hok⟩ := Prod.mk.inj h
        exact .cons hw (ih (Prod.ext rfl hok))

theorem Sound.substitute (h : Sound idoms label defs defs' s)
    (hv : ∀ v ∈ vs, Usable idoms defs label v) :
    ∃ us, s.substitute vs = (us, true) ∧ Forall₂ s.Replaces vs us ∧
      us.map Value.ty = vs.map Value.ty ∧ ∀ u ∈ us, Usable idoms defs' label u := by
  induction vs with
  | nil => exact ⟨[], rfl, .nil, rfl, by simp⟩
  | cons v vs ih =>
    obtain ⟨u, hu, hty, huse⟩ := h.replace (hv v (by simp))
    obtain ⟨us, hus, hall, htys, huses⟩ := ih fun v' hv' => hv v' (by simp [hv'])
    refine ⟨u :: us, substitute_cons hu hus, .cons hu hall, by simp [hty, htys], ?_⟩
    simp only [mem_cons, forall_eq_or_imp]
    exact ⟨huse, huses⟩

theorem foldBinop_cases (h : foldBinop op t x y = some u) :
    (∃ tx a ty b, x = .const tx a ∧ y = .const ty b ∧ u = .lit t (Eval.binop op t a b)) ∨
      (y.isZero = true ∧ foldRightZero op t x = some u) ∨
      (x.isZero = true ∧ foldLeftZero op t y = some u) := by
  unfold foldBinop at h
  split at h
  · rename_i tx a ty b
    simp only [Option.some.injEq] at h
    exact Or.inl ⟨tx, a, ty, b, rfl, rfl, h.symm⟩
  · rw [Option.orElse_eq_orElse, Option.orElse_eq_or, Option.or_eq_some_iff] at h
    rcases h with h | ⟨-, h⟩
    · split_ifs at h with hz
      exact Or.inr (Or.inl ⟨hz, h⟩)
    · split_ifs at h with hz
      exact Or.inr (Or.inr ⟨hz, h⟩)

theorem foldRightZero_cases (h : foldRightZero op t x = some u) : u = x ∨ u = .lit t 0 := by
  unfold foldRightZero at h
  split at h <;> simp_all

theorem foldLeftZero_cases (h : foldLeftZero op t y = some u) : u = y ∨ u = .lit t 0 := by
  unfold foldLeftZero at h
  split at h <;> simp_all

theorem foldBinop_result (h : foldBinop op t x y = some u) :
    (∃ a, u = .lit t a) ∨ u = x ∨ u = y := by
  rcases foldBinop_cases h with ⟨-, a, -, b, -, -, rfl⟩ | ⟨-, h⟩ | ⟨-, h⟩
  · exact Or.inl ⟨_, rfl⟩
  · exact (foldRightZero_cases h).elim (fun hx => Or.inr (Or.inl hx)) fun h0 => Or.inl ⟨0, h0⟩
  · exact (foldLeftZero_cases h).elim (fun hy => Or.inr (Or.inr hy)) fun h0 => Or.inl ⟨0, h0⟩

end Sweep

namespace Typing

theorem checkShape_binop (h : checkShape ⟨.binop op x y, t, n⟩ = .ok ()) : x.ty = t ∧ y.ty = t := by
  simp only [checkShape] at h
  split_ifs at h with hbad
  simp only [ne_eq, not_or, not_not] at hbad
  exact ⟨hbad.2, hbad.1 ▸ hbad.2⟩

theorem checkShape_icmp {op : CmpOp} (h : checkShape ⟨.icmp op x y, t, n⟩ = .ok ()) :
    x.ty = y.ty ∧ t = Ty.i1 := by
  simp only [checkShape] at h
  split_ifs at h with hxy ht
  exact ⟨not_not.mp hxy, not_not.mp ht⟩

theorem checkShape_cvt {op : CvtOp} (h : checkShape ⟨.cvt op x, t, n⟩ = .ok ()) : t ≠ x.ty := by
  rintro rfl
  cases op <;> simp [checkShape] at h

end Typing

namespace Sweep

theorem hasResult_of_fold (h : s.fold i = some u) : i.hasResult = true := by
  obtain ⟨op, t, n⟩ := i
  cases op with
  | not x | binop op x y | icmp op x y | cvt op x | read reg => rfl
  | _ => simp [fold] at h

/-- What an instruction folds to is a constant, an operand or the value of a register. It has the type
of the instruction, if the operands have the types that they should. -/
theorem fold_cases (h : s.fold i = some u) :
    ((∃ t x, u = .lit t x) ∨ u ∈ i.op.operands ∨ ∃ r, s.known.lookup r = some u) ∧
      (checkShape i = .ok () → u.ty = i.ty) := by
  obtain ⟨op, t, n⟩ := i
  cases op with
  | not x =>
    cases x with
    | var tx id => simp [fold] at h
    | const tx a =>
      cases h
      exact ⟨Or.inl ⟨_, _, rfl⟩, fun _ => rfl⟩
  | binop op x y =>
    rcases foldBinop_result h with ⟨a, rfl⟩ | rfl | rfl
    · exact ⟨Or.inl ⟨_, _, rfl⟩, fun _ => rfl⟩
    · exact ⟨Or.inr (Or.inl (by simp [Op.operands])), fun hshape => (checkShape_binop hshape).1⟩
    · exact ⟨Or.inr (Or.inl (by simp [Op.operands])), fun hshape => (checkShape_binop hshape).2⟩
  | icmp op x y =>
    cases x with
    | var tx id => simp [fold] at h
    | const tx a =>
      cases y with
      | var ty id => simp [fold] at h
      | const ty b =>
        cases h
        exact ⟨Or.inl ⟨_, _, rfl⟩, fun hshape => (checkShape_icmp hshape).2.symm⟩
  | cvt op x =>
    cases x with
    | const tx a =>
      cases h
      exact ⟨Or.inl ⟨_, _, rfl⟩, fun _ => rfl⟩
    | var tx id =>
      simp only [fold] at h
      split_ifs at h with hty
      cases h
      exact ⟨Or.inr (Or.inl (by simp [Op.operands])), fun _ => hty⟩
  | read reg =>
    simp only [fold] at h
    split at h
    · rename_i v hv
      split_ifs at h with hty
      cases h
      exact ⟨Or.inr (Or.inr ⟨reg, hv⟩), fun _ => hty⟩
    · cases h
  | _ => simp [fold] at h

/-- What stands for an instruction that goes away has its type and may be used from there on. -/
theorem Sound.fold (h : Sound idoms label defs defs' s)
    (hops : ∀ v ∈ i.op.operands, Usable idoms defs' label v)
    (hshape : checkShape i = .ok ()) (hscalar : i.ty.IsScalar) (hfold : s.fold i = some u) :
    u.ty = i.ty ∧ Usable idoms defs' label u := by
  obtain ⟨hu, hty⟩ := fold_cases hfold
  refine ⟨hty hshape, ?_⟩
  rcases hu with ⟨t, x, rfl⟩ | hu | ⟨r, hr⟩
  · exact Value.usable_lit (show (Value.lit t x).ty.IsScalar from hty hshape ▸ hscalar) x
  · exact hops u hu
  · exact h.known hr

/-- What becomes of an instruction whose operands are replaced: it goes away, it defines the next
variable, or it stays as it is. -/
theorem settle_cases (h : s.settle i = some (kept, s')) :
    (∃ u, s.fold i = some u ∧ kept = none ∧
        s' = { s with subst := s.subst.setIfInBounds i.res.toNat u }) ∨
      (s.fold i = none ∧ i.hasResult = true ∧ kept = some { i with res := s.next } ∧
        s' = learn { s with subst := s.subst.setIfInBounds i.res.toNat (.var i.ty s.next), next := s.next + 1 }
          { i with res := s.next }) ∨
      (s.fold i = none ∧ i.hasResult = false ∧ kept = some i ∧ s' = s.learn i) := by
  unfold settle at h
  cases hf : s.fold i with
  | some u =>
    simp only [hf, record, Option.map_eq_some_iff] at h
    obtain ⟨t, ht, ⟨⟩⟩ := h
    split_ifs at ht
    cases ht
    exact Or.inl ⟨u, rfl, rfl, rfl⟩
  | none =>
    simp only [hf, record] at h
    split_ifs at h with hres hrange
    · simp at h
    · cases h
      exact Or.inr (Or.inl ⟨rfl, hres, rfl, rfl⟩)
    · cases h
      exact Or.inr (Or.inr ⟨rfl, by simpa using hres, rfl, rfl⟩)

theorem learn_subst (s : Sweep) (i : Instr) : (s.learn i).subst = s.subst := by
  unfold learn
  split <;> rfl

theorem learn_next (s : Sweep) (i : Instr) : (s.learn i).next = s.next := by
  unfold learn
  split <;> rfl

/-- What the sweep keeps of an instruction, and what it makes of its own tables then. -/
theorem settle_kept (h : s.settle i = some (some i', s')) :
    i'.op = i.op ∧ i'.ty = i.ty ∧ s'.known = (s.learn i').known ∧
      s'.subst = if i.hasResult then s.subst.setIfInBounds i.res.toNat i'.result else s.subst := by
  rcases settle_cases h with ⟨u, -, hnone, -⟩ | ⟨-, hres, hkept, rfl⟩ | ⟨-, hres, hkept, rfl⟩
  · cases hnone
  · cases hkept
    refine ⟨rfl, rfl, ?_, by simp [learn_subst, hres, Instr.result]⟩
    unfold learn
    split <;> rfl
  · cases hkept
    exact ⟨rfl, rfl, rfl, by simp [learn_subst, hres]⟩

theorem settle_mono (h : s.settle i = some (kept, s')) :
    s'.subst.size = s.subst.size ∧ s.next ≤ s'.next := by
  rcases settle_cases h with ⟨u, -, -, rfl⟩ | ⟨-, -, -, rfl⟩ | ⟨-, -, -, rfl⟩
  · simp
  · simp [learn_subst, learn_next]
  · simp [learn_subst, learn_next]

theorem settle_isSome (h : i.hasResult = true → 0 ≤ i.res ∧ i.res < s.subst.size) :
    ∃ r, s.settle i = some r := by
  unfold settle
  cases hf : s.fold i with
  | some u =>
    have hres := h (hasResult_of_fold hf)
    simp [record, not_or.mpr ⟨not_lt.mpr hres.1, not_le.mpr hres.2⟩]
  | none =>
    by_cases hr : i.hasResult = true
    · have hres := h hr
      simp [hr, record, not_or.mpr ⟨not_lt.mpr hres.1, not_le.mpr hres.2⟩]
    · simp [hr]

section Sound

theorem Sound.define (h : Sound idoms label defs defs' s) {v : Nat} (hv : defs[v]? = some none)
    (hu : Usable idoms defs' label u) (hty : u.ty = t) :
    Sound idoms label (defs.setIfInBounds v (some (label, t))) defs'
      { s with subst := s.subst.setIfInBounds v u } where
  size := by simp [h.size]
  fresh := h.fresh
  known := h.known
  value := by
    intro w d t' hw
    have hlt : v < s.subst.size := h.size ▸ (Array.getElem?_eq_some_iff.mp hv).1
    rw [getElem?_setIfInBounds] at hw
    by_cases he : v = w
    · subst he
      rw [if_pos rfl] at hw
      split_ifs at hw
      cases hw
      exact ⟨u, by simp [hlt], hty, hu⟩
    · rw [if_neg he] at hw
      obtain ⟨u', hu', hrest⟩ := h.value hw
      exact ⟨u', by rw [getElem?_setIfInBounds, if_neg he, hu'], hrest⟩

theorem Sound.grow (h : Sound idoms label defs defs' s) (hroom : s.next < defs'.size) :
    Sound idoms label defs (defs'.setIfInBounds s.next (some (label, t))) { s with next := s.next + 1 } := by
  have hext : Extends label defs' (defs'.setIfInBounds s.next (some (label, t))) :=
    set_extends (h.fresh _ le_rfl hroom)
  refine ⟨h.size, ?_, ?_, fun hk => (h.known hk).of_extends hext⟩
  · intro n hn hsize
    simp only [size_setIfInBounds] at hsize
    rw [getElem?_setIfInBounds, if_neg (by simp only at hn; omega)]
    exact h.fresh n (by simp only at hn; omega) hsize
  · intro v d t' hv
    obtain ⟨u, hu, hty, huse⟩ := h.value hv
    exact ⟨u, hu, hty, huse.of_extends hext⟩

theorem Sound.learn (h : Sound idoms label defs defs' s)
    (hops : ∀ v ∈ i.op.operands, Usable idoms defs' label v)
    (hres : i.hasResult = true → Usable idoms defs' label i.result) :
    Sound idoms label defs defs' (s.learn i) := by
  refine ⟨by rw [learn_subst, h.size], by rw [learn_next]; exact h.fresh,
    by rw [learn_subst]; exact h.value, ?_⟩
  obtain ⟨op, t, n⟩ := i
  intro r u hu
  cases op with
  | read reg =>
    simp only [learn, lookup_cons] at hu
    split at hu
    · cases hu
      exact hres rfl
    · exact h.known hu
  | write reg x =>
    simp only [learn, lookup_cons] at hu
    split at hu
    · cases hu
      exact hops u (by simp [Op.operands])
    · exact h.known hu
  | call target ps => simp [learn] at hu
  | _ => exact h.known hu

/-- One instruction of a checked block. If it goes away the table of the new graph stays; otherwise
what is kept passes the check. -/
theorem Sound.settle (h : Sound idoms label defs defs' s) {mid : Defs}
    (hi : checkInstr idoms label defs i = .ok mid)
    (hus : s.substitute i.op.operands = (us, true))
    (hs : s.settle { i with op := i.op.withOperands us } = some (kept, s'))
    (hroom : s'.next ≤ defs'.size) :
    (kept = none ∧ i.hasResult = true ∧ Sound idoms label mid defs' s') ∨
      ∃ i' mid', kept = some i' ∧ i.Rewrites i' ∧
        checkInstr idoms label defs' i' = .ok mid' ∧ Sound idoms label mid mid' s' := by
  obtain ⟨huses, hshape, hdef⟩ := checkInstr_ok.mp hi
  obtain ⟨us', hus', -, htys, huses'⟩ := h.substitute huses
  obtain rfl : us' = us := congrArg Prod.fst (hus'.symm.trans hus)
  have hrw (n : Int) : i.Rewrites ⟨i.op.withOperands us', i.ty, n⟩ := ⟨us', n, htys, rfl⟩
  have hres (n : Int) := (hrw n).hasResult_eq
  have hshape (n : Int) := (hrw n).checkShape_eq.trans hshape
  have hops : (i.op.withOperands us').operands = us' :=
    Op.operands_withOperands (by simpa using congrArg length htys)
  rw [← hops] at huses'
  rcases settle_cases hs with ⟨u, hfold, rfl, rfl⟩ | ⟨-, hyes, rfl, rfl⟩ | ⟨-, hno, rfl, rfl⟩
  · have hyes := (hres i.res).symm.trans (hasResult_of_fold hfold)
    obtain ⟨hscalar, -, hnone, rfl⟩ := define_of_result hdef hyes
    obtain ⟨hty, hu⟩ := h.fold huses' (hshape i.res) hscalar hfold
    exact Or.inl ⟨rfl, hyes, h.define hnone hu hty⟩
  · have hroom : s.next < defs'.size := by rwa [learn_next] at hroom
    obtain ⟨hscalar, -, hnone, rfl⟩ := define_of_result hdef ((hres i.res).symm.trans hyes)
    have hfresh := h.fresh s.next le_rfl hroom
    have hmid : Sound idoms label defs (defs'.setIfInBounds s.next (some (label, i.ty)))
        { s with next := s.next + 1 } := h.grow hroom
    have hvar : Usable idoms (defs'.setIfInBounds s.next (some (label, i.ty))) label
        (.var i.ty s.next) := by
      refine ⟨hscalar, label, ?_, Idoms.dominates_self idoms label⟩
      rw [entryAt?_natCast, getElem?_setIfInBounds, if_pos rfl, if_pos hroom]
    refine Or.inr ⟨_, _, rfl, hrw s.next, checkInstr_ok.mpr ⟨huses', hshape s.next,
      define_eq_ok hyes hscalar hfresh⟩, (hmid.define hnone hvar rfl).learn ?_ fun _ => hvar⟩
    exact fun v hv => (huses' v hv).of_extends (set_extends hfresh)
  · rcases define_ok hdef with ⟨-, rfl⟩ | ⟨hyes, -⟩
    · refine Or.inr ⟨_, defs', rfl, hrw i.res, checkInstr_ok.mpr ⟨huses', hshape i.res, ?_⟩,
        h.learn huses' fun hyes => ?_⟩
      · rw [Typing.define, hno]
        rfl
      · rw [hno] at hyes
        cases hyes
    · rw [(hres i.res).symm.trans hno] at hyes
      cases hyes

end Sound

/-- A sweep over a list that got to its end, taken apart at the first instruction. -/
theorem instrs_cons {rest : List Instr} (h : s.instrs (i :: rest) = (is', s', true)) :
    ∃ us kept mid rest', s.substitute i.op.operands = (us, true) ∧
      s.settle { i with op := i.op.withOperands us } = some (kept, mid) ∧
      mid.instrs rest = (rest', s', true) ∧ is' = kept.toList ++ rest' := by
  simp only [instrs] at h
  cases hus : s.substitute i.op.operands with | mk us ok
  simp only [hus] at h
  cases ok with
  | false => simp at h
  | true =>
    simp only [Bool.not_true, Bool.false_eq_true, if_false] at h
    split at h
    · simp at h
    · rename_i mid hs
      exact ⟨us, none, mid, is', rfl, hs, h, rfl⟩
    · rename_i kept mid hs
      simp only [Prod.mk.injEq] at h
      obtain ⟨rfl, rfl, hdone⟩ := h
      refine ⟨us, some kept, mid, (mid.instrs rest).1, rfl, hs, ?_, rfl⟩
      rw [← hdone]

theorem instrs_mono (h : s.instrs is = (is', s', true)) :
    s'.subst.size = s.subst.size ∧ s.next ≤ s'.next := by
  induction is generalizing s is' with
  | nil =>
    cases h
    exact ⟨rfl, le_rfl⟩
  | cons i rest ih =>
    obtain ⟨us, kept, mid, rest', -, hs, hrest, -⟩ := instrs_cons h
    have h₁ := settle_mono hs
    have h₂ := ih hrest
    exact ⟨h₂.1.trans h₁.1, h₁.2.trans h₂.2⟩

end Sweep

/-- `is'` keeps some instructions of `is` in their order, with other operands. The others only define
a variable. -/
inductive Instr.Trimmed : List Instr → List Instr → Prop where
  | nil : Trimmed [] []
  | keep {i i' : Instr} {is is' : List Instr} (h : i.Rewrites i') (hrest : Trimmed is is') :
      Trimmed (i :: is) (i' :: is')
  | drop {i : Instr} {is is' : List Instr} (h : i.hasResult = true) (hrest : Trimmed is is') :
      Trimmed (i :: is) is'

theorem Instr.isTerminator_of_hasResult (h : i.hasResult = true) : i.isTerminator = false := by
  obtain ⟨op, t, n⟩ := i
  cases op with
  | exit | br c f t => simp [hasResult] at h
  | _ => rfl

/-- A terminator at the end stays there. -/
theorem Instr.Trimmed.getLast? (h : Trimmed is is') (hi : is.getLast? = some i)
    (hterm : i.isTerminator = true) : ∃ i', is'.getLast? = some i' ∧ i.Rewrites i' := by
  induction h with
  | nil => simp at hi
  | @keep j j' is is' hrw _ ih =>
    cases hr : is.getLast? with
    | none =>
      obtain rfl := getLast?_eq_none_iff.mp hr
      rename_i hrest
      cases hrest
      simp only [getLast?_singleton, Option.some.injEq] at hi
      exact ⟨j', by simp, hi ▸ hrw⟩
    | some k =>
      rw [getLast?_cons, hr] at hi
      obtain ⟨i', hi', hrw'⟩ := ih (hr.trans hi)
      exact ⟨i', by simp [getLast?_cons, hi'], hrw'⟩
  | @drop j is is' hres _ ih =>
    cases hr : is.getLast? with
    | none =>
      obtain rfl := getLast?_eq_none_iff.mp hr
      simp only [getLast?_singleton, Option.some.injEq] at hi
      rw [← hi, Instr.isTerminator_of_hasResult hres] at hterm
      cases hterm
    | some k =>
      rw [getLast?_cons, hr] at hi
      exact ih (hr.trans hi)

theorem Instr.Trimmed.isEmpty_eq (h : Trimmed is is')
    (hlast : ∀ i, is.getLast? = some i → i.isTerminator = true) : is.isEmpty = is'.isEmpty := by
  cases hl : is.getLast? with
  | none =>
    obtain rfl := getLast?_eq_none_iff.mp hl
    cases h
    rfl
  | some i =>
    obtain ⟨i', hi', -⟩ := h.getLast? hl (hlast i hl)
    have hne : is ≠ [] := by
      rintro rfl
      simp at hl
    have hne' : is' ≠ [] := by
      rintro rfl
      simp at hi'
    simp [isEmpty_eq_false_iff.mpr hne, isEmpty_eq_false_iff.mpr hne']

namespace Sweep

/-- A checked list of instructions passes the check after the sweep as well. -/
theorem Sound.instrs (h : Sound idoms label defs defs' s)
    (hcheck : checkInstrs idoms label defs is = .ok last)
    (hs : s.instrs is = (is', s', true)) (hroom : s'.next ≤ defs'.size) :
    Instr.Trimmed is is' ∧ ∃ last', checkInstrs idoms label defs' is' = .ok last' ∧
      Sound idoms label last last' s' := by
  induction is generalizing defs defs' s is' with
  | nil =>
    cases hs
    cases hcheck
    exact ⟨.nil, defs', rfl, h⟩
  | cons i rest ih =>
    obtain ⟨mid, hplace, hi, hrest⟩ := checkInstrs_cons_ok.mp hcheck
    obtain ⟨us, kept, s₁, rest', hus, hset, hs₁, rfl⟩ := instrs_cons hs
    have hroom₁ : s₁.next ≤ defs'.size := (instrs_mono hs₁).2.trans hroom
    rcases h.settle hi hus hset hroom₁ with ⟨rfl, hres, hmid⟩ | ⟨i', mid', rfl, hrw, hi', hmid⟩
    · obtain ⟨htrim, hlast⟩ := ih hmid hrest hs₁ hroom
      exact ⟨.drop hres htrim, hlast⟩
    · have hsize : mid'.size = defs'.size :=
        (define_extends (checkInstr_ok.mp hi').2.2).size
      obtain ⟨htrim, last', hlast, hsound⟩ := ih hmid hrest hs₁ (hsize ▸ hroom)
      refine ⟨.keep hrw htrim, last', ?_, hsound⟩
      refine checkInstrs_cons_ok.mpr ⟨mid', ?_, hi', hlast⟩
      rw [hrw.isTerminator_eq, hplace]
      exact htrim.isEmpty_eq (checkInstrs_getLast? hrest)

/-- What is known at the start of a block: nothing of registers. -/
def atEntry (s : Sweep) : Sweep :=
  { s with known := [] }

theorem blocks_cons {b : Block} {rest : List Block} (h : s.blocks (b :: rest) = (bs', s', true)) :
    ∃ is' mid rest', s.atEntry.instrs b.instrs = (is', mid, true) ∧
      mid.blocks rest = (rest', s', true) ∧ bs' = { b with instrs := is' } :: rest' := by
  simp only [blocks] at h
  cases hi : s.atEntry.instrs b.instrs with | mk is' r
  obtain ⟨mid, done⟩ := r
  simp only [atEntry] at hi
  simp only [hi] at h
  cases done with
  | false => simp at h
  | true =>
    simp only [Bool.not_true, Bool.false_eq_true, if_false, Prod.mk.injEq] at h
    obtain ⟨rfl, rfl, hdone⟩ := h
    exact ⟨is', mid, (mid.blocks rest).1, rfl, by rw [← hdone], rfl⟩

theorem blocks_mono (h : s.blocks bs = (bs', s', true)) :
    s'.subst.size = s.subst.size ∧ s.next ≤ s'.next := by
  induction bs generalizing s bs' with
  | nil =>
    cases h
    exact ⟨rfl, le_rfl⟩
  | cons b rest ih =>
    obtain ⟨is', mid, rest', hi, hrest, -⟩ := blocks_cons h
    have h₁ := instrs_mono hi
    have h₂ := ih hrest
    exact ⟨h₂.1.trans h₁.1, h₁.2.trans h₂.2⟩

theorem blocks_tables (h : s.blocks bs = (bs', s', true)) :
    ∃ table : Nat → Sweep, table 0 = s ∧ table bs.length = s' ∧ bs'.length = bs.length ∧
      ∀ (k : Nat) b, bs[k]? = some b → ∃ is',
        (table k).atEntry.instrs b.instrs = (is', table (k + 1), true) ∧
          bs'[k]? = some { b with instrs := is' } := by
  induction bs generalizing s bs' with
  | nil =>
    cases h
    exact ⟨fun _ => s', rfl, rfl, rfl, by simp⟩
  | cons b rest ih =>
    obtain ⟨is', mid, rest', hi, hrest, rfl⟩ := blocks_cons h
    obtain ⟨table, h0, hlast, hlen, htable⟩ := ih hrest
    refine ⟨fun k => k.casesOn s table, rfl, hlast, by simp [hlen], ?_⟩
    intro k b' hb'
    cases k with
    | zero =>
      cases hb'
      exact ⟨is', by simpa [h0] using hi, rfl⟩
    | succ k =>
      simp only [getElem?_cons_succ] at hb' ⊢
      exact htable k b' hb'

/-- What stands for a variable is recorded where the variable is defined, and nowhere else. -/
theorem settle_subst (h : s.settle i = some (kept, s')) {v : Nat}
    (hv : i.hasResult = true → v ≠ i.res.toNat) : s'.subst[v]? = s.subst[v]? := by
  rcases settle_cases h with ⟨u, hfold, -, rfl⟩ | ⟨-, hres, -, rfl⟩ | ⟨-, -, -, rfl⟩
  · have hne := hv (hasResult_of_fold hfold)
    simp [hne.symm]
  · rw [learn_subst]
    simp [(hv hres).symm]
  · rw [learn_subst]

theorem instrs_subst (hcheck : checkInstrs idoms label defs is = .ok last)
    (hs : s.instrs is = (is', s', true)) {v : Nat} (hv : defs[v]? = some (some p)) :
    s'.subst[v]? = s.subst[v]? := by
  induction is generalizing defs s is' with
  | nil =>
    cases hs
    rfl
  | cons i rest ih =>
    obtain ⟨mid, -, hi, hrest⟩ := checkInstrs_cons_ok.mp hcheck
    obtain ⟨us, kept, s₁, rest', -, hset, hs₁, rfl⟩ := instrs_cons hs
    have hdef := (checkInstr_ok.mp hi).2.2
    rw [ih hrest hs₁ ((define_extends hdef).keep hv)]
    refine settle_subst hset fun hres => ?_
    rw [Instr.hasResult_withOperands i.op us i.ty i.res i.res] at hres
    rintro rfl
    cases hv.symm.trans (define_of_result hdef hres).2.2.1

/-- The new list does not define more variables than the old one. -/
theorem instrs_next_le (hcheck : checkInstrs idoms label defs is = .ok last)
    (hs : s.instrs is = (is', s', true)) (h : s.next ≤ defs.countP Option.isSome) :
    s'.next ≤ last.countP Option.isSome := by
  induction is generalizing defs s is' with
  | nil =>
    cases hs
    cases hcheck
    exact h
  | cons i rest ih =>
    obtain ⟨mid, -, hi, hrest⟩ := checkInstrs_cons_ok.mp hcheck
    obtain ⟨us, kept, s₁, rest', -, hset, hs₁, rfl⟩ := instrs_cons hs
    have hdef := countP_define (checkInstr_ok.mp hi).2.2
    refine ih hrest hs₁ ?_
    have hres := Instr.hasResult_withOperands i.op us i.ty i.res i.res
    rcases settle_cases hset with ⟨u, -, -, rfl⟩ | ⟨-, hyes, -, rfl⟩ | ⟨-, -, -, rfl⟩
    · simp only
      omega
    · rw [hres] at hyes
      rw [learn_next]
      simp only [hyes, if_true] at hdef
      simp only
      omega
    · rw [learn_next]
      omega

section Done

variable {count : Int} (hsize : (s.subst.size : Int) = count)
include hsize

theorem substitute_of_inRange (h : ∀ v ∈ vs, v.InRange count) :
    ∃ us, s.substitute vs = (us, true) := by
  induction vs with
  | nil => exact ⟨[], rfl⟩
  | cons v vs ih =>
    obtain ⟨us, hus⟩ := ih fun u hu => h u (mem_cons_of_mem v hu)
    cases v with
    | const t x => exact ⟨.const t x :: us, substitute_cons rfl hus⟩
    | var t n =>
      obtain ⟨hpos, hlt⟩ := h (.var t n) mem_cons_self
      have hn : n.toNat < s.subst.size := by omega
      refine ⟨s.subst[n.toNat] :: us, substitute_cons ?_ hus⟩
      rw [Replaces, entryAt?, if_neg (by omega), Array.getElem?_eq_getElem hn]

theorem instrs_of_inRange {is : List Instr} (h : ∀ i ∈ is, i.InRange count) :
    ∃ is' s', s.instrs is = (is', s', true) := by
  induction is generalizing s with
  | nil => exact ⟨[], s, rfl⟩
  | cons i rest ih =>
    obtain ⟨hops, hres⟩ := h i mem_cons_self
    obtain ⟨us, hus⟩ := substitute_of_inRange hsize hops
    obtain ⟨⟨kept, mid⟩, hs⟩ : ∃ r, s.settle { i with op := i.op.withOperands us } = some r := by
      refine settle_isSome fun hr => ?_
      rw [Instr.hasResult_withOperands i.op us i.ty i.res i.res] at hr
      rw [hsize]
      exact hres hr
    have hmid : (mid.subst.size : Int) = count := by rw [(settle_mono hs).1, hsize]
    obtain ⟨rest', s', hrest⟩ := ih hmid fun j hj => h j (mem_cons_of_mem i hj)
    refine ⟨kept.toList ++ rest', s', ?_⟩
    cases kept <;> simp [instrs, hus, hs, hrest]

theorem blocks_of_inRange {bs : List Block} (h : ∀ b ∈ bs, ∀ i ∈ b.instrs, i.InRange count) :
    ∃ bs' s', s.blocks bs = (bs', s', true) := by
  induction bs generalizing s with
  | nil => exact ⟨[], s, rfl⟩
  | cons b rest ih =>
    obtain ⟨is', mid, hi⟩ := instrs_of_inRange (s := s.atEntry) hsize (h b mem_cons_self)
    have hmid : (mid.subst.size : Int) = count := by
      rw [(instrs_mono hi).1]
      exact hsize
    obtain ⟨bs', s', hrest⟩ := ih hmid fun c hc => h c (mem_cons_of_mem b hc)
    exact ⟨{ b with instrs := is' } :: bs', s', by simp [blocks, ← atEntry.eq_def, hi, hrest]⟩

end Done

theorem Sound.enter (h : Sound idoms label defs defs' s) (label' : Nat) :
    Sound idoms label' defs defs' s.atEntry :=
  ⟨h.size, h.fresh, h.value, by simp [atEntry]⟩

end Sweep

/-- A sequence that starts in `P` and can go on from `P` to `P` exists up to any length. -/
theorem exists_table {α : Type} {P : Nat → α → Prop} {R : Nat → α → α → Prop} {n : Nat} {a : α}
    (h0 : P 0 a) (hstep : ∀ k < n, ∀ x, P k x → ∃ y, R k x y ∧ P (k + 1) y) :
    ∃ f : Nat → α, f 0 = a ∧ (∀ k ≤ n, P k (f k)) ∧ ∀ k < n, R k (f k) (f (k + 1)) := by
  induction n with
  | zero => exact ⟨fun _ => a, rfl, by simpa using h0, by simp⟩
  | succ n ih =>
    obtain ⟨f, hf0, hP, hR⟩ := ih fun k hk => hstep k (by omega)
    obtain ⟨y, hy, hPy⟩ := hstep n (by omega) (f n) (hP n le_rfl)
    refine ⟨fun k => if k = n + 1 then y else f k, by simpa using hf0, ?_, ?_⟩
    · intro k hk
      by_cases he : k = n + 1
      · simpa [he] using hPy
      · simpa [he] using hP k (by omega)
    · intro k hk
      by_cases he : k = n
      · simpa [he] using hy
      · simpa [show k ≠ n + 1 by omega, he] using hR k (by omega)

namespace Graph

theorem addTargets_congr {last : Idoms} {ts : List Int}
    (h : addTargets count i label idoms ts = .ok last) :
    addTargets count i' label idoms ts = .ok last := by
  induction ts generalizing idoms with
  | nil => exact h
  | cons t rest ih =>
    simp only [addTargets] at h ⊢
    split_ifs at h ⊢ with hout hnone
    · exact ih h
    · exact ih h

/-- Only the terminators matter to the pass for dominators. -/
theorem addBlocks_congr {last : Idoms} (h : addBlocks count idoms label bs = .ok last)
    (hbs : Forall₂ (fun b b' => ∃ i i', b.tail? = some i ∧ b'.tail? = some i' ∧ i.Rewrites i')
      bs bs') : addBlocks count idoms label bs' = .ok last := by
  induction hbs generalizing label idoms with
  | nil => exact h
  | @cons b b' rest rest' hb _ ih =>
    obtain ⟨⟨op, t, n⟩, i', hi, hi', vs, m, hty, rfl⟩ := hb
    simp only [addBlocks, hi, hi'] at h ⊢
    cases op with
    | br c f t =>
      obtain ⟨x, rfl, -⟩ := map_eq_singleton_iff.mp hty
      simp only [Except.bind_eq_ok] at h
      obtain ⟨mid, htargets, hrest⟩ := h
      simp only [Op.withOperands, Except.bind_eq_ok]
      exact ⟨mid, addTargets_congr htargets, ih hrest⟩
    | _ =>
      split
      · rename_i hbr
        obtain ⟨c, hc⟩ := Op.br_of_withOperands hbr
        cases hc
      · exact ih h

/-- `g'` is what the sweep makes of `g`, and `table` has the sweeps in front of the blocks. -/
structure Swept (g g' : Graph) where
  table : Nat → Sweep
  start : table 0 = { subst := replicate g.varCount.toNat Value.none }
  varCount : g'.varCount = (table g.blocks.size).next
  size : g'.blocks.size = g.blocks.size
  block : ∀ {k : Nat} {b}, g.blocks[k]? = some b → ∃ is',
    (table k).atEntry.instrs b.instrs = (is', table (k + 1), true) ∧
      g'.blocks[k]? = some { b with instrs := is' }

/-- The variables of a checked graph are declared. -/
theorem Typed.inRange {g : Graph} (T : g.Typed) (hi : i ∈ g.instrs) :
    i.InRange g.varCount.toNat := by
  obtain ⟨k, b, hb, hib⟩ := exists_block hi
  obtain ⟨mid, mid', hcheck, hext⟩ := checkInstrs_mem (T.block hb).2.2 hib
  obtain ⟨huses, -, hdef⟩ := checkInstr_ok.mp hcheck
  have hsize : mid.size = g.varCount.toNat := by
    rw [← hext.size, T.size_defs (Array.getElem?_eq_some_iff.mp hb).1]
  refine ⟨fun v hv => ?_, fun hres => ?_⟩
  · cases v with
    | const t x => trivial
    | var t id =>
      obtain ⟨-, at_, hid, -⟩ := huses _ hv
      obtain ⟨hnat, hentry⟩ := entryAt?_eq_some hid
      have := (Array.getElem?_eq_some_iff.mp hentry).1
      exact ⟨by omega, by omega⟩
  · obtain ⟨-, hnat, hnone, -⟩ := define_of_result hdef hres
    have := (Array.getElem?_eq_some_iff.mp hnone).1
    exact ⟨by omega, by omega⟩

/-- The sweep gets to the end of a checked graph, if there is room for its table. -/
theorem Typed.swept {g : Graph} (T : g.Typed) :
    ∃ g', Nonempty (g.Swept g') ∧ (g.hasRoomFor 24 = true → g.sweep = (g', true)) := by
  obtain ⟨bs', s', hs'⟩ := blocks_of_inRange (s := { subst := replicate g.varCount.toNat Value.none })
    (by simp) fun b (hb : b ∈ g.blocks.toList) i hi => T.inRange (mem_flatMap.mpr ⟨b, hb, hi⟩)
  obtain ⟨table, h0, hlast, hlen, htable⟩ := blocks_tables hs'
  refine ⟨⟨bs'.toArray, s'.next⟩, ⟨table, h0, ?_, by simpa using hlen, ?_⟩, ?_⟩
  · rw [← hlast, length_toList]
  · intro k b hkb
    simpa using htable k b (by simpa using hkb)
  · intro hroom
    simp [sweep, hroom, hs']

section Swept

variable {g g' : Graph} (T : g.Typed) (S : g.Swept g')

theorem Swept.next_mono (hjk : j ≤ k) (hk : k ≤ g.blocks.size) :
    (S.table j).next ≤ (S.table k).next := by
  induction k, hjk using Nat.le_induction with
  | base => exact le_rfl
  | succ k _ ih =>
    have hlt : k < g.blocks.size := by omega
    obtain ⟨is', his', -⟩ := S.block (getElem?_eq_getElem hlt)
    exact (ih (by omega)).trans (instrs_mono his').2

theorem Swept.subst_eq {v : Nat} (hjk : j ≤ k) (hk : k ≤ g.blocks.size)
    (hv : (T.defs j)[v]? = some (some p)) : (S.table k).subst[v]? = (S.table j).subst[v]? := by
  induction k, hjk using Nat.le_induction with
  | base => rfl
  | succ k hle ih =>
    have hlt : k < g.blocks.size := by omega
    have hb : g.blocks[k]? = some g.blocks[k] := getElem?_eq_getElem hlt
    obtain ⟨is', his', -⟩ := S.block hb
    rw [instrs_subst (T.block hb).2.2 his' (T.defs_mono hle (by omega) hv)]
    exact ih (by omega)

theorem Swept.varCount_toNat : g'.varCount.toNat = (S.table g.blocks.size).next := by
  rw [S.varCount, Int.toNat_natCast]

theorem Swept.block_typed {b b' : Block} (hb : g.blocks[k]? = some b)
    (hb' : g'.blocks[k]? = some b') (hsize : defs'.size = g'.varCount.toNat)
    (h : Sound T.idoms k (T.defs k) defs' (S.table k).atEntry) :
    b'.label = k ∧ Instr.Trimmed b.instrs b'.instrs ∧
      ∃ last', checkInstrs T.idoms k defs' b'.instrs = .ok last' ∧
        Sound T.idoms k (T.defs (k + 1)) last' (S.table (k + 1)) := by
  obtain ⟨is', his', hkept⟩ := S.block hb
  obtain rfl : { b with instrs := is' } = b' := Option.some.inj (hkept.symm.trans hb')
  obtain ⟨hlabel, -, hcheck⟩ := T.block hb
  have hlt : k < g.blocks.size := (Array.getElem?_eq_some_iff.mp hb).1
  have hroom : (S.table (k + 1)).next ≤ defs'.size := by
    rw [hsize, S.varCount_toNat]
    exact S.next_mono hlt le_rfl
  exact ⟨hlabel, h.instrs hcheck his' hroom⟩

/-- The tables of the checker for the new graph, which are those of the old one as the sweep sees
them. -/
theorem Swept.exists_defs : ∃ defs' : Nat → Defs,
    defs' 0 = Array.replicate g'.varCount.toNat none ∧
      (∀ k ≤ g.blocks.size, Sound T.idoms k (T.defs k) (defs' k) (S.table k).atEntry ∧
        (defs' k).size = g'.varCount.toNat) ∧
      ∀ k < g.blocks.size, ∀ b', g'.blocks[k]? = some b' →
        checkInstrs T.idoms k (defs' k) b'.instrs = .ok (defs' (k + 1)) := by
  refine exists_table (P := fun k defs' => Sound T.idoms k (T.defs k) defs' (S.table k).atEntry ∧
      defs'.size = g'.varCount.toNat)
    (R := fun k defs' last' => ∀ b', g'.blocks[k]? = some b' →
      checkInstrs T.idoms k defs' b'.instrs = .ok last') ?_ ?_
  · refine ⟨⟨?_, ?_, ?_, by simp [atEntry]⟩, by simp⟩
    · simp [atEntry, S.start, T.start]
    · intro n _ hn
      rw [Array.size_replicate] at hn
      simp [hn]
    · intro v d t hv
      rw [T.start, Array.getElem?_replicate] at hv
      split_ifs at hv
      simp at hv
  · rintro k hk defs' ⟨hsound, hsize⟩
    have hb : g.blocks[k]? = some g.blocks[k] := Array.getElem?_eq_getElem hk
    obtain ⟨is', -, hb'⟩ := S.block hb
    obtain ⟨-, -, last', hlast', hsound'⟩ := S.block_typed T hb hb' hsize hsound
    refine ⟨last', fun b'' hb'' => ?_, hsound'.enter (k + 1), ?_⟩
    · cases hb'.symm.trans hb''
      exact hlast'
    · rw [(checkInstrs_extends hlast').size, hsize]

theorem Swept.dominators (T : g.Typed) (S : g.Swept g') : g'.dominators = .ok T.idoms := by
  obtain ⟨defs', -, hdefs, -⟩ := S.exists_defs T
  have htails : Forall₂ (fun b b' => ∃ i i', Block.tail? b = some i ∧ Block.tail? b' = some i' ∧
      i.Rewrites i') g.blocks.toList g'.blocks.toList := by
    refine forall₂_iff_get.mpr ⟨by simp [S.size], fun k hk hk' => ?_⟩
    simp only [length_toList] at hk hk'
    have hb : g.blocks[k]? = some g.blocks[k] := getElem?_eq_getElem hk
    have hb' : g'.blocks[k]? = some g'.blocks[k] := getElem?_eq_getElem hk'
    obtain ⟨hsound, hsize⟩ := hdefs k hk.le
    obtain ⟨-, htrim, -⟩ := S.block_typed T hb hb' hsize hsound
    obtain ⟨-, hne, hcheck⟩ := T.block hb
    have hlast := getLast?_eq_some_getLast hne
    obtain ⟨i', hi', hrw⟩ := htrim.getLast? hlast (checkInstrs_getLast? hcheck _ hlast)
    exact ⟨_, i', hlast, hi', hrw⟩
  have hdom := T.dominators
  rw [Graph.dominators, Except.bind_eq_ok] at hdom ⊢
  obtain ⟨idoms, hadd, hreached⟩ := hdom
  rw [S.size]
  exact ⟨idoms, addBlocks_congr hadd htails, hreached⟩

/-- The new graph has tables as well, related to those of the old one in front of every block. -/
theorem Swept.typed : ∃ T' : g'.Typed, T'.idoms = T.idoms ∧ ∀ k ≤ g.blocks.size,
    Sound T.idoms k (T.defs k) (T'.defs k) (S.table k).atEntry := by
  obtain ⟨defs', hstart, hdefs, hcheck⟩ := S.exists_defs T
  refine ⟨⟨T.idoms, defs', S.dominators T, hstart, ?_⟩, rfl, fun k hk => (hdefs k hk).1⟩
  intro k b' hb'
  have hk : k < g.blocks.size := S.size ▸ (Array.getElem?_eq_some_iff.mp hb').1
  have hb : g.blocks[k]? = some g.blocks[k] := getElem?_eq_getElem hk
  obtain ⟨hsound, hsize⟩ := hdefs k hk.le
  obtain ⟨hlabel, htrim, -⟩ := S.block_typed T hb hb' hsize hsound
  obtain ⟨-, hne, hold⟩ := T.block hb
  refine ⟨hlabel, ?_, hcheck k hk b' hb'⟩
  have hempty := htrim.isEmpty_eq (checkInstrs_getLast? hold)
  intro hnil
  rw [hnil, List.isEmpty_nil, List.isEmpty_iff] at hempty
  exact hne hempty

/-- The new graph declares no more variables than the old one. -/
theorem Swept.varCount_le (T : g.Typed) (S : g.Swept g') :
    g'.varCount ≤ g.varCount.toNat := by
  have hcount : ∀ k ≤ g.blocks.size, (S.table k).next ≤ (T.defs k).countP Option.isSome := by
    intro k hk
    induction k with
    | zero => simp [S.start]
    | succ k ih =>
      have hb : g.blocks[k]? = some g.blocks[k] := getElem?_eq_getElem hk
      obtain ⟨is', his', -⟩ := S.block hb
      exact instrs_next_le (T.block hb).2.2 his' (ih (by omega))
  have hle := (hcount _ le_rfl).trans countP_le_size
  rw [T.size_defs le_rfl] at hle
  rw [S.varCount]
  exact_mod_cast hle

end Swept

theorem hasRoomFor_of_le {g h : Graph} {n m : Nat} (hg : g.hasRoomFor n = true) (hmn : m ≤ n)
    (hpos : 0 ≤ h.varCount) (hle : h.varCount ≤ g.varCount.toNat) : h.hasRoomFor m = true := by
  simp only [hasRoomFor, Host.canAllocate, Bool.and_eq_true, decide_eq_true_eq] at hg ⊢
  have hm : h.varCount * m ≤ g.varCount * n := by
    have : (m : Int) ≤ n := by exact_mod_cast hmn
    have : h.varCount ≤ g.varCount := by omega
    have := hg.1
    gcongr
  exact ⟨hpos, by omega⟩

/-- A graph that the checker accepts is accepted after the sweep, which gets to its end if there is
room for its table. -/
theorem typecheck_simplify {g : Graph} (h : g.typecheck = .accepted) :
    g.simplify.typecheck = .accepted ∧ (g.hasRoomFor 24 = true → g.sweep.2 = true) := by
  obtain ⟨hne, hroom, ⟨T⟩⟩ := typecheck_eq_accepted.mp h
  obtain ⟨g', ⟨S⟩, hsweep⟩ := T.swept
  by_cases h24 : g.hasRoomFor 24 = true
  · have hsimp : g.simplify = g' := by rw [simplify, hsweep h24]
    obtain ⟨T', -, -⟩ := S.typed T
    rw [hsimp, hsweep h24]
    refine ⟨typecheck_eq_accepted.mpr ⟨by rwa [S.size], ?_, ⟨T'⟩⟩, fun _ => rfl⟩
    exact hasRoomFor_of_le hroom le_rfl (by rw [S.varCount]; omega) (S.varCount_le T)
  · have hsame : g.simplify = g := by simp [simplify, sweep, h24]
    exact ⟨by rwa [hsame], fun h => absurd h h24⟩

end Graph

end Dynarec
