import Dynarec.Native.Assemble
import Dynarec.Proofs.Machine.CodeBuffer
import Dynarec.Proofs.Native.Code

/-!
# What assembly does to its buffer

Assembly writes behind the code that a buffer has. If it succeeds, the new code is what stands between
the old and the new position; if it fails, the position is where it was. How it ends depends on the
buffer only by its room: it fails for want of room, or as the layout of the graph does.
-/
namespace Dynarec.Native

open Machine CodeBuffer Placed

/-! ## Items -/

@[simp] theorem itemsLength_nil : itemsLength [] = 0 := rfl

@[simp] theorem itemsLength_cons (it : Item) (items : List Item) :
    itemsLength (it :: items) = it.length + itemsLength items := rfl

@[simp] theorem itemsLength_append (front back : List Item) :
    itemsLength (front ++ back) = itemsLength front + itemsLength back := by
  induction front with
  | nil => simp
  | cons it front ih =>
    rw [List.cons_append, itemsLength_cons, itemsLength_cons, ih, Nat.add_assoc]

theorem length_instr (rel : Int32) (it : Item) : (it.instr rel).length = it.length := by
  cases it with
  | plain i => rfl
  | jump c t => cases c <;> rfl

theorem length_flatMap_resolve (target : Target → Nat) (pos : Nat) (items : List Item) :
    ((resolve target pos items).flatMap Instr.encode).length = itemsLength items := by
  induction items generalizing pos with
  | nil => rfl
  | cons it items ih =>
    simp only [resolve, List.flatMap_cons, List.length_append, ih]
    exact congrArg (· + itemsLength items) (length_instr _ it)

theorem resolve_append (target : Target → Nat) (pos : Nat) (front back : List Item) :
    resolve target pos (front ++ back) =
      resolve target pos front ++ resolve target (pos + itemsLength front) back := by
  induction front generalizing pos with
  | nil => rfl
  | cons it front ih =>
    simp only [List.cons_append, resolve, ih, itemsLength_cons, Nat.add_assoc]

/-- A function that was written: the size of its frame, its position in the buffer and its blocks. -/
structure Written where
  frame : Nat
  start : Nat
  blocks : List Placed

namespace Written

def first (f : Written) : Nat :=
  f.start + codeLength (prologue f.frame)

def items (f : Written) : List Item :=
  f.blocks.flatMap Placed.items

def target (f : Written) : Target → Nat :=
  Target.offset (places f.first f.blocks).1 (places f.first f.blocks).2

def body (f : Written) : Code :=
  resolve f.target f.first f.items

def code (f : Written) : Code :=
  prologue f.frame ++ (f.body ++ epilogue)

end Written

/-! ## How writing ends -/

/-- A buffer that code can be written to: its position is inside, and nothing has failed there. -/
structure Ready (b : CodeBuffer) : Prop where
  inside : b.Inside
  error : b.error = none

def AssembleFailure.IsOverflow (f : AssembleFailure) : Prop :=
  ∃ o, f = .error (.overflow o)

variable {w : Workspace} {g : Graph} {h : Homes} {b b' : CodeBuffer} {f : AssembleFailure}
  {stop : Option AssembleFailure}

/-- How the attempt to write some code ends, if it takes `room` and is to end with `stop`: it lacks
room, or it ends so, and then the code is there unless it was stopped. What was there before is kept. -/
def Ends (b : CodeBuffer) (stop : Option AssembleFailure) (room : Nat) (code : Code)
    (r : Option AssembleFailure × CodeBuffer) : Prop :=
  b.Keeps r.2 ∧ ((∃ f, r.1 = some f ∧ f.IsOverflow ∧ b.capacity < b.offset + room) ∨
    r.1 = stop ∧ b.offset + room ≤ b.capacity ∧
      (stop = none → b.Appends (code.flatMap Instr.encode) r.2))

/-- The room that runs need. A full buffer is not noticed in the run that is stopped. -/
def runsRoom (stop : Option AssembleFailure) : List (List Placed) → Nat
  | [] => 0
  | run :: rest =>
      if rest.isEmpty ∧ stop.isSome then 0
      else itemsLength (run.flatMap items) + runsRoom stop rest

theorem runsRoom_le (stop : Option AssembleFailure) (rs : List (List Placed)) :
    runsRoom stop rs ≤ itemsLength (rs.flatten.flatMap items) := by
  induction rs with
  | nil => exact le_rfl
  | cons run rest ih =>
    rw [runsRoom, List.flatten_cons, List.flatMap_append, itemsLength_append]
    split_ifs <;> omega

theorem runsRoom_none (rs : List (List Placed)) :
    runsRoom none rs = itemsLength (rs.flatten.flatMap items) := by
  induction rs with
  | nil => rfl
  | cons run rest ih => simp [runsRoom, ih]

theorem writeRuns_ends (target : Target → Nat) (stop : Option AssembleFailure) (pos : Nat)
    (hb : Ready b) (rs : List (List Placed)) :
    Ends b stop (runsRoom stop rs) (resolve target pos (rs.flatten.flatMap items))
      (writeRuns target stop pos b rs) := by
  induction rs generalizing pos b with
  | nil =>
    exact ⟨.refl hb.inside, Or.inr ⟨rfl, by simpa [runsRoom] using hb.inside.high,
      fun _ => .refl hb.inside hb.error⟩⟩
  | cons run rest ih =>
    have hkeeps := emitAll_keeps hb.inside (resolve target pos (run.flatMap items))
    simp only [writeRuns, runsRoom]
    split_ifs with hlast
    · refine ⟨hkeeps, Or.inr ⟨rfl, by simpa using hb.inside.high, fun hnone => ?_⟩⟩
      simp [hnone] at hlast
    · rcases emitAll hb.inside hb.error (resolve target pos (run.flatMap items))
        with hrun | ⟨o, ho, -, hfull⟩
      · obtain ⟨hrest, hcases⟩ := ih (pos + itemsLength (run.flatMap items))
          ⟨hkeeps.inside hb.inside, hrun.error⟩
        rw [hrun.error]
        rw [hrun.capacity, hrun.offset, length_flatMap_resolve, add_assoc, ← Nat.cast_add] at hcases
        refine ⟨hkeeps.trans hrest, hcases.imp_right (And.imp_right (And.imp_right ?_))⟩
        intro happends hnone
        rw [List.flatten_cons, List.flatMap_append, resolve_append, List.flatMap_append]
        exact hrun.trans hb.inside (happends hnone)
      · rw [length_flatMap_resolve] at hfull
        rw [ho]
        exact ⟨hkeeps, Or.inl ⟨_, rfl, ⟨o, rfl⟩, by push_cast; omega⟩⟩

/-- The room that the function of a graph needs. -/
def codeNeed (w : Workspace) (g : Graph) (h : Homes) : Nat :=
  codeLength (prologue h.frameSize) + (runsRoom (layout w g h).2 (layout w g h).1 +
    if (layout w g h).2 = none then codeLength epilogue else 0)

theorem writeCode_ends (w : Workspace) (g : Graph) (h : Homes) (hb : Ready b) :
    Ends b (layout w g h).2 (codeNeed w g h)
      (Written.code ⟨h.frameSize, b.offset.toNat, (layout w g h).1.flatten⟩) (writeCode w g h b) := by
  have hkeeps := emitAll_keeps hb.inside (prologue h.frameSize)
  simp only [writeCode, codeNeed]
  rcases layout w g h with ⟨rs, stop⟩
  rcases emitAll hb.inside hb.error (prologue h.frameSize) with
    henter | ⟨o, ho, -, hfull⟩
  · have hin := hkeeps.inside hb.inside
    rw [henter.error]
    obtain ⟨hruns, hcases⟩ := writeRuns_ends
      (Written.target ⟨h.frameSize, b.offset.toNat, rs.flatten⟩) stop
      (Written.first ⟨h.frameSize, b.offset.toNat, rs.flatten⟩) ⟨hin, henter.error⟩ rs
    have hin' := hruns.inside hin
    rw [henter.capacity, henter.offset, length_flatMap_encode] at hcases
    refine ⟨(hkeeps.trans hruns).trans (emitAll_keeps hin' epilogue), ?_⟩
    rcases hcases with ⟨f, hf, hover, hfull⟩ | ⟨hstop, hroom, happends⟩
    · exact Or.inl ⟨f, Option.or_eq_some_iff.mpr (Or.inl hf), hover, by push_cast; omega⟩
    · cases stop with
      | some f =>
        refine Or.inr ⟨Option.or_eq_some_iff.mpr (Or.inl hstop), ?_, fun hnone => by cases hnone⟩
        simp only [reduceCtorEq, if_false]
        omega
      | none =>
        have hbody := happends rfl
        have hoffset := hbody.offset
        have hcapacity := hbody.capacity.trans henter.capacity
        rw [length_flatMap_resolve, ← runsRoom_none, henter.offset, length_flatMap_encode] at hoffset
        rw [if_pos rfl]
        rcases emitAll hin' hbody.error epilogue with hleave | ⟨o, ho, -, hfull⟩
        · have hhigh := hleave.high
          rw [hleave.offset, hleave.capacity, length_flatMap_encode] at hhigh
          refine Or.inr ⟨Option.or_eq_none_iff.mpr ⟨hstop, congrArg (Option.map _) hleave.error⟩,
            by push_cast; omega, fun _ => ?_⟩
          rw [Written.code, List.flatMap_append, List.flatMap_append]
          exact henter.trans hb.inside (hbody.trans hin hleave)
        · rw [length_flatMap_encode] at hfull
          exact Or.inl ⟨_, Option.or_eq_some_iff.mpr (Or.inr ⟨hstop, congrArg (Option.map _) ho⟩), ⟨o, rfl⟩,
            by push_cast; omega⟩
  · rw [length_flatMap_encode] at hfull
    rw [ho]
    exact ⟨hkeeps, Or.inl ⟨_, rfl, ⟨o, rfl⟩, by push_cast; omega⟩⟩

theorem writeCode_appends (hb : Ready b) (hwrite : writeCode w g h b = (none, b')) :
    (layout w g h).2 = none ∧ b.Appends ((Written.code
      ⟨h.frameSize, b.offset.toNat, (layout w g h).1.flatten⟩).flatMap Instr.encode) b' := by
  have hends := (writeCode_ends w g h hb).2
  rw [hwrite] at hends
  rcases hends with ⟨f, hf, -⟩ | ⟨hstop, -, happends⟩
  · cases hf
  · exact ⟨hstop.symm, happends hstop.symm⟩

theorem error_of_writeCode (hwrite : writeCode w g h b = (none, b')) : b.error = none := by
  by_contra herror
  obtain ⟨e, he⟩ := Option.ne_none_iff_exists'.mp herror
  simp [writeCode, emitAll_of_error herror, he] at hwrite

/-! ## Assembly -/

/-- What assembly does before it looks at its buffer. -/
def prepare (g : Graph) : Except AssembleFailure Homes :=
  if g.blocks.isEmpty then .error (.error .emptyGraph)
  else if !g.hasRoomFor Homes.entrySize then .error (.abort none)
  else (Homes.ofGraph g).mapError fun e => .error (.home e)

theorem prepare_eq_ok : prepare g = .ok h ↔ g.blocks.isEmpty = false ∧
    g.hasRoomFor Homes.entrySize = true ∧ Homes.ofGraph g = .ok h := by
  unfold prepare
  cases hempty : g.blocks.isEmpty <;> cases hsize : g.hasRoomFor Homes.entrySize <;>
    cases hhomes : Homes.ofGraph g <;> simp [Except.mapError]

theorem assemble_of_error (hprepare : prepare g = .error f) (w : Workspace) (b : CodeBuffer) :
    assemble w b g = (.error f, b) := by
  unfold prepare at hprepare
  split_ifs at hprepare with hempty hsize
  · cases hprepare
    simp [assemble, hempty]
  · cases hprepare
    simp [assemble, hempty, hsize]
  · cases hhomes : Homes.ofGraph g <;> rw [hhomes] at hprepare <;> cases hprepare
    simp [assemble, hempty, hsize, hhomes]

/-- What assembly makes of the end of writing. -/
def outcome (b : CodeBuffer) (h : Homes) :
    Option AssembleFailure × CodeBuffer → Except AssembleFailure Assembled × CodeBuffer
  | (some f, written) => (.error f, written.rewind b.offset)
  | (none, done) =>
      (.ok ⟨b.offset.toNat, done.offset.toNat - b.offset.toNat, h.frameSize, h.spilled⟩, done)

theorem assemble_of_prepare (hprepare : prepare g = .ok h) (w : Workspace) (b : CodeBuffer) :
    assemble w b g =
      if b.isMisplaced 1 then (.error (.abort none), b) else outcome b h (writeCode w g h b) := by
  obtain ⟨hempty, hsize, hhomes⟩ := prepare_eq_ok.mp hprepare
  simp only [assemble, hempty, hsize, hhomes, Bool.not_true, Bool.false_eq_true, if_false]
  rcases writeCode w g h b with ⟨_ | f, done⟩ <;> rfl

theorem Ready.assemble_eq (hb : Ready b) (hprepare : prepare g = .ok h) (w : Workspace) :
    assemble w b g = outcome b h (writeCode w g h b) := by
  rw [assemble_of_prepare hprepare, not_isMisplaced hb.inside]
  rfl

theorem assemble_eq_ok {code : Assembled} (hok : assemble w b g = (.ok code, b')) :
    b.isMisplaced 1 = false ∧ ∃ h, prepare g = .ok h ∧ writeCode w g h b = (none, b') ∧
      code = ⟨b.offset.toNat, b'.offset.toNat - b.offset.toNat, h.frameSize, h.spilled⟩ := by
  cases hprepare : prepare g with
  | error f =>
    rw [assemble_of_error hprepare] at hok
    cases hok
  | ok h =>
    rw [assemble_of_prepare hprepare] at hok
    split_ifs at hok with hplace
    · cases hok
    · rcases hwrite : writeCode w g h b with ⟨_ | f, done⟩ <;> rw [hwrite] at hok <;> cases hok
      exact ⟨by simpa using hplace, h, rfl, hwrite, rfl⟩

theorem assemble_ok (hb : Ready b) {code : Assembled} (hok : assemble w b g = (.ok code, b')) :
    Keeps b b' ∧ b'.error = none ∧ 0 < code.length ∧
      b'.offset = (code.offset + code.length : Nat) ∧ code.offset = b.offset.toNat := by
  obtain ⟨-, h, -, hwrite, rfl⟩ := assemble_eq_ok hok
  obtain ⟨-, happends⟩ := writeCode_appends hb hwrite
  have hlow := hb.inside.low
  have hoffset := happends.offset
  have hlength : 0 < codeLength (Written.code ⟨h.frameSize, b.offset.toNat, (layout w g h).1.flatten⟩) := by
    simp [Written.code, prologue, Instr.length, Instr.encode, Instr.pieces, Encode.short]
  rw [length_flatMap_encode] at hoffset
  refine ⟨happends.keeps hb.inside, happends.error, ?_, ?_, rfl⟩ <;> simp only <;> omega

/-- Failed assembly keeps the code of its buffer and the position behind it. -/
theorem assemble_error (hb : Ready b) (hfail : assemble w b g = (.error f, b')) :
    Keeps b b' ∧ b'.error = none ∧ b'.offset = b.offset := by
  cases hprepare : prepare g with
  | error f =>
    cases (assemble_of_error hprepare w b).symm.trans hfail
    exact ⟨.refl hb.inside, hb.error, rfl⟩
  | ok h =>
    have hkeeps := (writeCode_ends w g h hb).1
    rw [hb.assemble_eq hprepare] at hfail
    rcases hwrite : writeCode w g h b with ⟨_ | f, done⟩ <;> rw [hwrite] at hfail hkeeps <;>
      cases hfail
    exact ⟨⟨hkeeps.capacity, le_rfl, hkeeps.offset.trans hkeeps.high, hkeeps.bytes⟩, rfl, rfl⟩

/-- There is at least as much room behind the position of `b₀` as behind that of `b`. Both are in
order. -/
structure Roomier (b b₀ : CodeBuffer) : Prop where
  inside : b.Inside
  inside₀ : b₀.Inside
  error : b.error = none
  error₀ : b₀.error = none
  room : b.capacity - b.offset ≤ b₀.capacity - b₀.offset

/-- Assembly in a buffer lacks room there, or has the outcome that it has in any buffer with more
room. -/
theorem Roomier.assemble {b₀ : CodeBuffer} (hroom : Roomier b b₀) (w : Workspace) (g : Graph) :
    (∃ f, (assemble w b g).1 = .error f ∧ f.IsOverflow) ∨
      (∃ f, (assemble w b g).1 = .error f ∧ (assemble w b₀ g).1 = .error f) ∨
      ∃ code code₀, (assemble w b g).1 = .ok code ∧ (assemble w b₀ g).1 = .ok code₀ := by
  have hb : Ready b := ⟨hroom.inside, hroom.error⟩
  have hb₀ : Ready b₀ := ⟨hroom.inside₀, hroom.error₀⟩
  cases hprepare : prepare g with
  | error f =>
    rw [assemble_of_error hprepare, assemble_of_error hprepare]
    exact Or.inr (Or.inl ⟨f, rfl, rfl⟩)
  | ok h =>
    rw [hb.assemble_eq hprepare, hb₀.assemble_eq hprepare]
    have hmore := hroom.room
    have hends := (writeCode_ends w g h hb).2
    have hends₀ := (writeCode_ends w g h hb₀).2
    generalize writeCode w g h b = r at hends ⊢
    generalize writeCode w g h b₀ = r₀ at hends₀ ⊢
    obtain ⟨failure, written⟩ := r
    obtain ⟨failure₀, written₀⟩ := r₀
    rcases hends with ⟨f, rfl, hover, -⟩ | ⟨rfl, hfits, -⟩
    · exact Or.inl ⟨f, rfl, hover⟩
    · rcases hends₀ with ⟨f, -, -, hfull⟩ | ⟨rfl, -⟩
      · omega
      · cases (layout w g h).2 with
        | some f => exact Or.inr (Or.inl ⟨f, rfl, rfl⟩)
        | none => exact Or.inr (Or.inr ⟨_, _, rfl, rfl⟩)

end Dynarec.Native
