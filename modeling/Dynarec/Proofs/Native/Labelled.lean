import Dynarec.Proofs.Native.Homes
import Dynarec.Proofs.Native.Regular

/-!
# Code with labels

The code of a function as a listing in which jumps name the label they go to: the start of a block,
the epilogue, or a point in the code of the instruction that jumps. `Renders` compares such lines with
the code that is laid out. Once the labels have the positions at which they stand, the distances are
the same.
-/
namespace Dynarec.Native

open Machine Select List Dynarec.Except

variable {a pos : Nat} {ls ls' : List Line} {addr : Label → Nat} {op : BinOp} {size : Size}
  {u v : Value} {P : Option Cond → Label → Prop}

/-- A point in the code of an assertion or a division. -/
inductive Mark where
  /-- The divisor is not zero. -/
  | nonzero
  /-- The hardware divides. -/
  | divide
  | done
deriving DecidableEq

/-- What a jump can go to. -/
inductive Label where
  | block (k : Nat)
  | epilogue
  | inside (p : Place) (m : Mark)
deriving DecidableEq

def Target.label : Target → Label
  | block k => .block k
  | epilogue => .epilogue

inductive Line where
  | plain (i : Machine.Instr)
  | jump (c : Option Cond) (l : Label)
  | label (l : Label)

namespace Line

/-- The code of a line, with a jump at distance `rel`. -/
def code (rel : Int32) : Line → Code
  | plain i => [i]
  | jump none _ => [.jmp rel]
  | jump (some c) _ => [.jcc c rel]
  | label _ => []

def length (ln : Line) : Nat :=
  codeLength (ln.code 0)

@[simp] theorem length_plain (i : Machine.Instr) : (plain i).length = i.length := rfl

@[simp] theorem length_jump (c : Option Cond) (t : Target) :
    (jump c t.label).length = (Item.jump c t).length := by
  cases c <;> rfl

@[simp] theorem length_label (l : Label) : (label l).length = 0 := rfl

theorem codeLength_code (rel : Int32) (ln : Line) : codeLength (ln.code rel) = ln.length := by
  cases ln with
  | plain i => rfl
  | jump c l => cases c <;> rfl
  | label l => rfl

theorem code_cases (rel : Int32) (ln : Line) : ln.code rel = [] ∨ ∃ i, ln.code rel = [i] := by
  cases ln with
  | plain i => exact Or.inr ⟨i, rfl⟩
  | jump c l => cases c <;> exact Or.inr ⟨_, rfl⟩
  | label l => exact Or.inl rfl

/-- The distance from a position to the label that a line jumps to. -/
def rel (addr : Label → Nat) (pos : Nat) : Line → Int32
  | jump _ l => Int32.ofInt ((addr l : Int) - pos)
  | _ => 0

def label? : Line → Option Label
  | label l => some l
  | _ => none

end Line

/-- The code consists of the instructions of the lines, with jumps at some distances. -/
inductive Fills : List Line → Code → Prop
  | nil : Fills [] []
  | cons {ln ls code} (rel : Int32) (hrest : Fills ls code) : Fills (ln :: ls) (ln.code rel ++ code)

/-- Every jump in the code is that of a line, and it arrives at the label that the line names. Some
of the code stands behind the label. -/
def Lands (ls : List Line) (code : Code) : Prop :=
  ∀ {front back : Code} {i : Machine.Instr} {rel : Int32}, code = front ++ i :: back →
    i.rel? = some rel → ∃ ahead c l behind, ls = ahead ++ .jump c l :: behind ∧ Fills ahead front ∧
      [i] = (Line.jump c l).code rel ∧ Fills behind back ∧
      ∃ above below dest rest, ls = above ++ .label l :: below ∧ code = dest ++ rest ∧
        Fills above dest ∧ Fills below rest ∧ rest ≠ [] ∧
        (codeLength front + i.length : Int) + rel.toInt = codeLength dest

section Positions

def linesLength (ls : List Line) : Nat :=
  (ls.map Line.length).sum

def labels (ls : List Line) : List Label :=
  ls.filterMap Line.label?

/-- The code of lines that start at `pos`, if `addr` says where labels stand. -/
def emit (addr : Label → Nat) (pos : Nat) : List Line → Code
  | [] => []
  | ln :: rest =>
      ln.code (ln.rel addr (pos + ln.length)) ++ emit addr (pos + ln.length) rest

/-- The labels among lines that start at `pos` stand where `addr` says. -/
def Agrees (addr : Label → Nat) (pos : Nat) : List Line → Prop
  | [] => True
  | ln :: rest => (∀ l, ln = .label l → addr l = pos) ∧ Agrees addr (pos + ln.length) rest

/-- How many bytes stand before a label. -/
def offsetOf (l : Label) : List Line → Nat
  | [] => 0
  | ln :: rest => if ln.label? = some l then 0 else ln.length + offsetOf l rest

variable {l : Label}

@[simp] theorem linesLength_nil : linesLength [] = 0 := rfl

@[simp] theorem linesLength_cons (ln : Line) (ls : List Line) :
    linesLength (ln :: ls) = ln.length + linesLength ls := by
  simp [linesLength]

@[simp] theorem linesLength_append (ls ls' : List Line) :
    linesLength (ls ++ ls') = linesLength ls + linesLength ls' := by
  simp [linesLength]

@[simp] theorem linesLength_plain (code : Code) :
    linesLength (code.map .plain) = codeLength code := by
  induction code with
  | nil => rfl
  | cons i code ih => simp [ih]

@[simp] theorem labels_append (ls ls' : List Line) : labels (ls ++ ls') = labels ls ++ labels ls' :=
  filterMap_append

@[simp] theorem labels_nil : labels [] = [] := rfl

@[simp] theorem labels_cons_label (l : Label) (ls : List Line) :
    labels (.label l :: ls) = l :: labels ls := rfl

@[simp] theorem labels_cons_plain (i : Machine.Instr) (ls : List Line) :
    labels (.plain i :: ls) = labels ls := rfl

@[simp] theorem labels_cons_jump (c : Option Cond) (l : Label) (ls : List Line) :
    labels (.jump c l :: ls) = labels ls := rfl

@[simp] theorem labels_plain (code : Code) : labels (code.map .plain) = [] := by
  simp [labels, Line.label?, filterMap_eq_nil_iff]

theorem mem_labels : l ∈ labels ls ↔ .label l ∈ ls := by
  simp only [labels, mem_filterMap]
  constructor
  · rintro ⟨ln, hln, hl⟩
    cases ln with
    | label l' =>
      cases hl
      exact hln
    | _ => cases hl
  · exact fun hl => ⟨_, hl, rfl⟩

theorem emit_append (addr : Label → Nat) (pos : Nat) (ls ls' : List Line) :
    emit addr pos (ls ++ ls') = emit addr pos ls ++ emit addr (pos + linesLength ls) ls' := by
  induction ls generalizing pos with
  | nil => rfl
  | cons ln ls ih =>
    simp only [cons_append, emit, ih, linesLength_cons, Nat.add_assoc, append_assoc]

theorem emit_plain (addr : Label → Nat) (pos : Nat) (code : Code) :
    emit addr pos (code.map .plain) = code := by
  induction code generalizing pos with
  | nil => rfl
  | cons i code ih => simp [emit, ih, Line.code]

theorem codeLength_emit (addr : Label → Nat) (pos : Nat) (ls : List Line) :
    codeLength (emit addr pos ls) = linesLength ls := by
  induction ls generalizing pos with
  | nil => rfl
  | cons ln ls ih => simp only [emit, codeLength_append, Line.codeLength_code, ih, linesLength_cons]

theorem fills_emit (addr : Label → Nat) (pos : Nat) (ls : List Line) :
    Fills ls (emit addr pos ls) := by
  induction ls generalizing pos with
  | nil => exact .nil
  | cons ln ls ih => exact .cons _ (ih _)

theorem agrees_append : Agrees addr pos (ls ++ ls') ↔
    Agrees addr pos ls ∧ Agrees addr (pos + linesLength ls) ls' := by
  induction ls generalizing pos with
  | nil => simp [Agrees]
  | cons ln ls ih =>
    simp only [cons_append, Agrees, ih, linesLength_cons, Nat.add_assoc, and_assoc]

theorem Agrees.label (hagrees : Agrees addr pos (ls ++ .label l :: ls')) :
    addr l = pos + linesLength ls :=
  (agrees_append.mp hagrees).2.1 l rfl

/-- Labels that stand once stand where they are found. -/
theorem agrees_of_nodup (hnodup : (labels ls).Nodup)
    (haddr : ∀ l ∈ labels ls, addr l = pos + offsetOf l ls) : Agrees addr pos ls := by
  induction ls generalizing pos with
  | nil => trivial
  | cons ln ls ih =>
    cases ln with
    | label l =>
      obtain ⟨hl, hnodup⟩ := nodup_cons.mp (show (l :: labels ls).Nodup from hnodup)
      constructor
      · rintro l' hl'
        cases hl'
        simpa [offsetOf, Line.label?] using haddr l (mem_labels.mpr mem_cons_self)
      · refine ih hnodup fun l' hl' => ?_
        have hne : l ≠ l' := fun heq => hl (heq ▸ hl')
        have hpos := haddr l' (mem_labels.mpr (mem_cons_of_mem _ (mem_labels.mp hl')))
        simpa [offsetOf, Line.label?, hne] using hpos
    | plain i | jump c l =>
      refine ⟨fun l' hl' => (by cases hl'), ih hnodup fun l' hl' => ?_⟩
      rw [haddr l' hl', offsetOf, Nat.add_assoc]
      rfl

theorem exists_line {front back : Code} {i : Machine.Instr}
    (hemit : emit addr pos ls = front ++ i :: back) :
    ∃ ahead ln behind, ls = ahead ++ ln :: behind ∧ emit addr pos ahead = front ∧
      ln.code (ln.rel addr (pos + linesLength ahead + ln.length)) = [i] ∧
      emit addr (pos + linesLength ahead + ln.length) behind = back := by
  induction ls generalizing pos front with
  | nil => simp [emit] at hemit
  | cons ln ls ih =>
    rw [emit] at hemit
    have hcases : (∃ front', front = ln.code (ln.rel addr (pos + ln.length)) ++ front' ∧
        emit addr (pos + ln.length) ls = front' ++ i :: back) ∨
        front = [] ∧ ln.code (ln.rel addr (pos + ln.length)) = [i] ∧
          emit addr (pos + ln.length) ls = back := by
      rcases ln.code_cases (ln.rel addr (pos + ln.length)) with hcode | ⟨j, hcode⟩
      · rw [hcode] at hemit ⊢
        exact Or.inl ⟨front, rfl, hemit⟩
      · rw [hcode] at hemit ⊢
        cases front with
        | nil =>
          obtain ⟨rfl, hrest⟩ := cons.inj hemit
          exact Or.inr ⟨rfl, rfl, hrest⟩
        | cons j' front =>
          obtain ⟨rfl, hrest⟩ := cons.inj hemit
          exact Or.inl ⟨front, rfl, hrest⟩
    rcases hcases with ⟨front', rfl, hrest⟩ | ⟨rfl, hcode, hrest⟩
    · obtain ⟨ahead, ln', behind, rfl, rfl, hcode, hbehind⟩ := ih hrest
      refine ⟨ln :: ahead, ln', behind, rfl, rfl, ?_, ?_⟩
      · rwa [linesLength_cons, ← Nat.add_assoc]
      · rwa [linesLength_cons, ← Nat.add_assoc]
    · exact ⟨[], ln, ls, rfl, rfl, hcode, hrest⟩

theorem toInt_ofInt_sub {b : Nat} (ha : a < 2 ^ 31) (hb : b < 2 ^ 31) :
    (Int32.ofInt ((a : Int) - b)).toInt = a - b := by
  have hword : Int32.size = 2 ^ 32 := rfl
  rw [Int32.toInt_ofInt, hword]
  exact Int.bmod_eq_of_le (by omega) (by omega)

/-- In short code, jumps to labels that stand where they should arrive there. -/
theorem lands_emit (hagrees : Agrees addr 0 ls) (hshort : linesLength ls < 2 ^ 31)
    (hplain : ∀ {i}, .plain i ∈ ls → i.rel? = none)
    (haims : ∀ {c l}, .jump c l ∈ ls → .label l ∈ ls) {last : Machine.Instr}
    (hlast : ls.getLast? = some (.plain last)) : Lands ls (emit addr 0 ls) := by
  intro front back i rel hcode hrel
  obtain ⟨ahead, ln, behind, hls, hfront, hln, hback⟩ := exists_line hcode
  have hmem : ln ∈ ls := by simp [hls]
  cases ln with
  | label l => cases hln
  | plain j =>
    cases singleton_inj.mp hln
    rw [hplain hmem] at hrel
    cases hrel
  | jump c l =>
    have hdistance : rel = (Line.jump c l).rel addr
        (0 + linesLength ahead + (Line.jump c l).length) := by
      cases c <;> cases singleton_inj.mp hln <;> exact (Option.some.inj hrel).symm
    obtain ⟨above, below, habove⟩ := append_of_mem (haims hmem)
    have hl := Agrees.label (habove ▸ hagrees)
    refine ⟨ahead, c, l, behind, hls, hfront ▸ fills_emit _ _ _, ?_, hback ▸ fills_emit _ _ _,
      above, below, _, _, habove, ?_, fills_emit addr 0 above,
      fills_emit addr (0 + linesLength above) below, ?_, ?_⟩
    · rw [hdistance, hln]
    · rw [habove, emit_append]
      rfl
    · -- the last line is no label, so it stands below
      intro hnil
      cases below using reverseRecOn with
      | nil => simp [habove] at hlast
      | append_singleton below ln =>
        have hend : ln = .plain last := by
          simpa [habove, getLast?_append, getLast?_cons] using hlast
        subst hend
        rw [emit_append] at hnil
        simp [emit, Line.code] at hnil
    · have hlen := congrArg linesLength hls
      have hlen' := congrArg linesLength habove
      rw [linesLength_append, linesLength_cons] at hlen hlen'
      have hi : i.length = (Line.jump c l).length := by
        rw [← Line.codeLength_code, hln]
        rfl
      rw [hdistance, Line.rel, toInt_ofInt_sub (by omega) (by omega), hl, ← hfront,
        codeLength_emit, codeLength_emit, hi]
      omega

end Positions

namespace Labelled

variable (w : Workspace) (g : Graph) (h : Homes)

def assert (p : Place) (cond : Value) : Except BadSize (List Line) := do
  let code ← load h .rax cond
  return (code ++ [Machine.Instr.test .dword (.reg .rax) .rax]).map .plain ++
    [.jump (some .notEqual) (.inside p .done), .plain .ud2, .label (.inside p .done)]

/-- The division by zero. -/
def zero (p : Place) (op : BinOp) (t : Ty) (size : Size) : List Line :=
  match op with
  | .udiv => [.plain (.loadImm .rax t.mask), .jump none (.inside p .done)]
  | .sdiv =>
      [.plain (.test size (.reg .rax) .rax), .plain (.loadImm .rax t.mask),
        .jump (some .notNegative) (.inside p .done), .plain (.loadImm .rax 1),
        .jump none (.inside p .done)]
  | _ => [.jump none (.inside p .done)]

/-- The division by -1, apart from the hardware division. -/
def minusOne (p : Place) (op : BinOp) (size : Size) : List Line :=
  if isSignedDivision op then
    [.plain (.aluImm .cmp size (.reg .rcx) (-1)), .jump (some .notEqual) (.inside p .divide),
      .plain (if isRemainder op then .alu .xor .dword .rax (.reg .rax)
        else .unary .neg size (.reg .rax)),
      .jump none (.inside p .done), .label (.inside p .divide)]
  else []

def division (p : Place) (i : Dynarec.Instr) (op : BinOp) (size : Size) (x y : Value) :
    Except BadSize (List Line) := do
  let first ← load h .rax x
  let second ← load h .rcx y
  let back ← store h i .rax
  return (first ++ second ++ [Machine.Instr.test size (.reg .rcx) .rcx]).map .plain ++
    .jump (some .notEqual) (.inside p .nonzero) :: zero p op i.ty size ++
    .label (.inside p .nonzero) :: minusOne p op size ++
    (divideCode op size).map .plain ++
    .label (.inside p .done) :: (mask i.ty .rax ++ back).map .plain

/-- A jump to block `t`, unless it is the block that comes next. -/
def goOn (next : Option Nat) (t : Nat) : List Line :=
  if next = some t then [] else [.jump none (.block t)]

/-- A condition that is a constant selects its side here. -/
def branch (next : Option Nat) (ifFalse ifTrue : Nat) : Value → Except BadSize (List Line)
  | .const _ x => .ok (goOn next (if x &&& 1 = 0 then ifFalse else ifTrue))
  | .var t id => do
      let code ← load h .rax (.var t id)
      return (code ++ [Machine.Instr.test .dword (.reg .rax) .rax]).map .plain ++
        .jump (some .notEqual) (.block ifTrue) :: goOn next ifFalse

/-- The lines of the instruction at `p`. Block `next` is placed behind its block. -/
def instr (next : Option Nat) (p : Place) (i : Dynarec.Instr) : Except BadSize (List Line) :=
  match i.op with
  | .exit => .ok [.jump none .epilogue]
  | .br c ifFalse ifTrue => branch h next ifFalse.toNat ifTrue.toNat c
  | .assert c => assert h p c
  | .binop op x y =>
      if op.isDivision then division h p i op (if i.ty = Ty.i32 then .dword else .qword) x y
      else do return (← Select.code h w (index g p) i).map .plain
  | _ => do return (← Select.code h w (index g p) i).map .plain

/-- The lines of instructions that stand from `p` on. -/
def instrs (next : Option Nat) : Place → List Dynarec.Instr → Except BadSize (List Line)
  | _, [] => .ok []
  | p, i :: rest => do return (← instr w g h next p i) ++ (← instrs next p.succ rest)

def block (next : Option Nat) (k : Nat) : Except BadSize (List Line) :=
  instrs w g h next ⟨k, 0⟩ ((g.blocks[k]?.map Block.instrs).getD [])

/-- The lines of blocks in the order in which they are placed. -/
def blocks : List Nat → Except BadSize (List Line)
  | [] => .ok []
  | k :: rest => do return .label (.block k) :: (← block w g h rest.head? k) ++ (← blocks rest)

/-- Lines between the prologue and the epilogue. -/
def enclose (frame : Nat) (body : List Line) : List Line :=
  (prologue frame).map .plain ++ body ++ .label .epilogue :: epilogue.map .plain

def function (order : List Nat) : Except BadSize (List Line) := do
  return enclose h.frameSize (← blocks w g h order)

end Labelled

/-- The lines are those of the items: they have the same code when the labels stand where they
should. -/
structure Renders (ls : List Line) (items : List Item) : Prop where
  length : linesLength ls = itemsLength items
  emit : ∀ {addr : Label → Nat} {pos : Nat}, Agrees addr pos ls →
    emit addr pos ls = resolve (fun t => addr t.label) pos items

namespace Renders

variable {items items' : List Item}

theorem append (hls : Renders ls items) (hls' : Renders ls' items') :
    Renders (ls ++ ls') (items ++ items') := by
  constructor
  · rw [linesLength_append, itemsLength_append, hls.length, hls'.length]
  · intro addr pos hagrees
    obtain ⟨hfront, hback⟩ := agrees_append.mp hagrees
    rw [emit_append, resolve_append, hls.emit hfront, hls'.emit hback, hls.length]

theorem plain (code : Code) : Renders (code.map .plain) (code.map .plain) := by
  constructor
  · rw [linesLength_plain, itemsLength_map_plain]
  · intro addr pos _
    rw [emit_plain, resolve_map_plain]

theorem jump (c : Option Cond) (t : Target) : Renders [.jump c t.label] [.jump c t] := by
  constructor
  · simp
  · intro addr pos _
    simp only [Native.emit, resolve, Line.length_jump]
    cases c <;> rfl

theorem nil : Renders [] [] :=
  ⟨rfl, fun _ => rfl⟩

/-- Lines without jumps out of them are those of their code. -/
theorem of_emit {code : Code} (hnodup : (labels ls).Nodup)
    (hemit : ∀ {addr pos}, Agrees addr pos ls → Native.emit addr pos ls = code) :
    Renders ls (code.map .plain) := by
  constructor
  · have hagrees : Agrees (fun l => offsetOf l ls) 0 ls :=
      agrees_of_nodup hnodup fun l _ => (Nat.zero_add _).symm
    rw [itemsLength_map_plain, ← hemit hagrees, codeLength_emit]
  · intro addr pos hagrees
    rw [hemit hagrees, resolve_map_plain]

theorem label (hls : Renders ls items) (l : Label) : Renders (.label l :: ls) items :=
  ⟨by simp [hls.length], fun hagrees => hls.emit hagrees.2⟩

end Renders

section Selected

variable {w : Workspace} {g : Graph} {h : Homes} {p : Place} {code : Code} {i : Dynarec.Instr}

theorem ofInt_sub {next n : Nat} (ha : a = next + n) :
    Int32.ofInt ((a : Int) - next) = displacement n := by
  rw [displacement]
  congr 1
  omega

theorem emit_zero {t : Ty} {rest : Nat}
    (hdone : addr (.inside p .done) = pos + linesLength (Labelled.zero p op t size) + rest) :
    emit addr pos (Labelled.zero p op t size) = zeroCode op t size rest := by
  cases op with
  | udiv =>
    simp only [Labelled.zero, linesLength_cons, linesLength_nil] at hdone
    simp only [Labelled.zero, emit, Line.rel]
    rw [ofInt_sub (n := rest) (by omega)]
    rfl
  | sdiv =>
    simp only [Labelled.zero, linesLength_cons, linesLength_nil] at hdone
    have hnegative : (Line.plain (.loadImm .rax 1)).length +
        (Line.jump none (.inside p .done)).length =
          codeLength [.loadImm .rax 1, jumpOver rest] := rfl
    simp only [Labelled.zero, emit, Line.rel]
    rw [ofInt_sub (n := codeLength [.loadImm .rax 1, jumpOver rest] + rest) (by omega),
      ofInt_sub (n := rest) (by omega)]
    rfl
  | _ =>
    simp only [Labelled.zero, linesLength_cons, linesLength_nil] at hdone
    simp only [Labelled.zero, emit, Line.rel]
    rw [ofInt_sub (n := rest) (by omega)]
    rfl

theorem linesLength_zero (p : Place) (op : BinOp) (t : Ty) (size : Size) (rest : Nat) :
    linesLength (Labelled.zero p op t size) = codeLength (zeroCode op t size rest) := by
  have hzero : emit (fun _ => linesLength (Labelled.zero p op t size) + rest) 0
      (Labelled.zero p op t size) = zeroCode op t size rest :=
    emit_zero (by rw [Nat.zero_add])
  rw [← hzero, codeLength_emit]

/-- The part of the code for a divisor that is not zero in front of the hardware division. -/
theorem emit_minusOne
    (hagrees : Agrees addr pos (Labelled.minusOne p op size)) (hdone : addr (.inside p .done) =
      pos + linesLength (Labelled.minusOne p op size) + codeLength (divideCode op size)) :
    emit addr pos (Labelled.minusOne p op size) ++ divideCode op size =
      nonzeroCode op size := by
  unfold Labelled.minusOne at hagrees hdone ⊢
  unfold nonzeroCode
  cases hsigned : isSignedDivision op with
  | false => rfl
  | true =>
    simp only [hsigned, if_true] at hagrees hdone ⊢
    have hdivide := hagrees.2.2.2.2.1 _ rfl
    simp only [linesLength_cons, linesLength_nil, Line.length_label] at hdone
    simp only [emit, Line.rel]
    rw [ofInt_sub (n := codeLength [if isRemainder op then .alu .xor .dword .rax (.reg .rax)
        else .unary .neg size (.reg .rax),
        jumpOver (codeLength (divideCode op size))]),
      ofInt_sub (n := codeLength (divideCode op size)) (by omega)]
    · rfl
    · rw [hdivide, Nat.add_assoc (_ + _)]
      rfl

theorem labels_zero (p : Place) (op : BinOp) (t : Ty) (size : Size) :
    labels (Labelled.zero p op t size) = [] := by
  cases op <;> rfl

theorem labels_minusOne (p : Place) (op : BinOp) (size : Size) :
    labels (Labelled.minusOne p op size) =
      if isSignedDivision op then [.inside p .divide] else [] := by
  unfold Labelled.minusOne
  split_ifs <;> rfl

theorem renders_assert (p : Place) (hcode : assert h v = .ok code) :
    ∃ ls, Labelled.assert h p v = .ok ls ∧ Renders ls (code.map .plain) := by
  obtain ⟨load, hload, ⟨⟩⟩ := bind_eq_ok.mp hcode
  refine ⟨_, bind_eq_ok.mpr ⟨load, hload, rfl⟩, Renders.of_emit (by simp) ?_⟩
  intro addr pos hagrees
  have hdone := (agrees_append.mp hagrees).2.2.2.1 _ rfl
  rw [emit_append, emit_plain]
  simp only [emit, Line.rel]
  rw [ofInt_sub (n := codeLength [.ud2]) hdone]
  rfl

theorem renders_division (p : Place) (hcode : division h i op size u v = .ok code) :
    ∃ ls, Labelled.division h p i op size u v = .ok ls ∧ Renders ls (code.map .plain) := by
  obtain ⟨first, second, hfirst, hsecond, hcode⟩ := bind₂_eq_ok.mp hcode
  obtain ⟨back, hback, ⟨⟩⟩ := bind_eq_ok.mp hcode
  refine ⟨_, bind_eq_ok.mpr ⟨first, hfirst, bind_eq_ok.mpr ⟨second, hsecond,
    bind_eq_ok.mpr ⟨back, hback, rfl⟩⟩⟩, Renders.of_emit ?_ ?_⟩
  · simp only [append_assoc, cons_append, labels_append, labels_plain, labels_cons_jump,
      labels_zero, labels_cons_label, labels_minusOne]
    split_ifs <;> simp
  · intro addr pos hagrees
    simp only [append_assoc, cons_append] at hagrees ⊢
    obtain ⟨-, -, hrest⟩ := agrees_append.mp hagrees
    obtain ⟨-, hnonzero, hrest⟩ := agrees_append.mp hrest
    obtain ⟨hminus, hrest⟩ := agrees_append.mp hrest
    obtain ⟨-, hdone, -⟩ := agrees_append.mp hrest
    replace hnonzero := hnonzero _ rfl
    replace hdone := hdone _ rfl
    simp only [linesLength_plain, Line.length_label, Nat.add_zero] at hminus hdone hnonzero
    have hcode := emit_minusOne hminus hdone
    have hlen := congrArg codeLength hcode
    rw [codeLength_append, codeLength_emit] at hlen
    have hzero := emit_zero (hdone.trans ((Nat.add_assoc _ _ _).trans (congrArg _ hlen)))
    simp only [emit_append, emit_plain, emit, Line.rel, linesLength_plain, Line.length_label,
      Nat.add_zero, hzero]
    rw [ofInt_sub hnonzero]
    simp only [Line.code, skipIf, append_assoc, cons_append, nil_append]
    rw [← append_assoc (emit _ _ (Labelled.minusOne p op size)), hcode,
      linesLength_zero _ _ _ _ (codeLength (nonzeroCode op size))]

/-- The lines of an instruction inside a block are those of its code. -/
theorem renders_code (next : Option Nat) (hterm : i.isTerminator = false)
    (hcode : Select.code h w (index g p) i = .ok code) :
    ∃ ls, Labelled.instr w g h next p i = .ok ls ∧ Renders ls (code.map .plain) := by
  have hstraight : ∃ ls, (do return (← Select.code h w (index g p) i).map Line.plain) =
      Except.ok ls ∧ Renders ls (code.map .plain) :=
    ⟨_, bind_eq_ok.mpr ⟨code, hcode, rfl⟩, .plain code⟩
  obtain ⟨op, ty, res⟩ := i
  cases op with
  | exit | br => cases hterm
  | assert c => exact renders_assert p hcode
  | binop op x y =>
    simp only [Labelled.instr]
    by_cases hdiv : op.isDivision = true
    · rw [if_pos hdiv]
      simp only [Select.code, if_pos hdiv] at hcode
      exact renders_division p hcode
    · rw [if_neg hdiv]
      exact hstraight
  | _ => exact hstraight

end Selected

/-- The points inside the code of an operation that it jumps to, in their order. -/
def marks : Op → List Mark
  | .assert _ => [.done]
  | .binop op _ _ =>
      if op.isDivision then
        .nonzero :: (if isSignedDivision op then [.divide] else []) ++ [.done]
      else []
  | _ => []

theorem nodup_marks (op : Op) : (marks op).Nodup := by
  unfold marks
  split
  · decide
  · split_ifs <;> decide
  · decide

/-- Where the jumps of an operation at `p` go. -/
inductive Aims (p : Place) : Op → Option Cond → Label → Prop
  | exit : Aims p .exit none .epilogue
  | selected {t x ifFalse ifTrue} : Aims p (.br (.const t x) ifFalse ifTrue) none
      (.block (if x &&& 1 = 0 then ifFalse.toNat else ifTrue.toNat))
  | ifFalse {t id ifFalse ifTrue} : Aims p (.br (.var t id) ifFalse ifTrue) none
      (.block ifFalse.toNat)
  | ifTrue {t id ifFalse ifTrue} : Aims p (.br (.var t id) ifFalse ifTrue) (some .notEqual)
      (.block ifTrue.toNat)
  | inside {op c m} (hm : m ∈ marks op) : Aims p op c (.inside p m)

/-- The instruction of a line has property `Q`, or the line is a jump that goes where `P` says. -/
def Line.Meets (Q : Machine.Instr → Prop) (P : Option Cond → Label → Prop) : Line → Prop
  | plain i => Q i
  | jump c l => P c l
  | label _ => True

theorem Line.Meets.imp {Q Q' : Machine.Instr → Prop} {P' : Option Cond → Label → Prop} {ln : Line}
    (hln : ln.Meets Q P) (hQ : ∀ i, Q i → Q' i) (hP : ∀ c l, P c l → P' c l) : ln.Meets Q' P' := by
  cases ln with
  | plain i => exact hQ i hln
  | jump c l => exact hP c l hln
  | label l => trivial

theorem meets_plain {Q : Machine.Instr → Prop} {code : Code} (hcode : All Q code) :
    ∀ ln ∈ code.map Line.plain, ln.Meets Q P := by
  intro ln hln
  obtain ⟨i, hi, rfl⟩ := mem_map.mp hln
  exact hcode i hi

/-- Code is read as it is written if the instructions of its lines are, and if the conditions of its
jumps have encodings. -/
theorem allRegular_emit (hls : ∀ ln ∈ ls, ln.Meets Machine.Instr.Straight P)
    (hP : ∀ {c l}, P c l → c.all (·.code < 16)) : AllRegular (emit addr pos ls) := by
  induction ls generalizing pos with
  | nil => exact all_nil
  | cons ln ls ih =>
    rw [forall_mem_cons] at hls
    refine all_append.mpr ⟨?_, ih hls.2⟩
    cases ln with
    | plain i => exact all_singleton.mpr hls.1.1
    | label l => exact all_nil
    | jump c l =>
      cases c with
      | none => exact all_singleton.mpr ⟨trivial, rfl⟩
      | some c =>
        have hc : c.code < 16 := of_decide_eq_true (hP hls.1)
        exact all_singleton.mpr ⟨hc, rfl⟩

section Instrs

variable {w : Workspace} {g : Graph} {h : Homes} {next : Option Nat} {p : Place} {i : Dynarec.Instr}

theorem meets_tested {code : Code} (hcode : load h .rax v = .ok code) :
    ∀ ln ∈ (code ++ [Machine.Instr.test .dword (.reg .rax) .rax]).map Line.plain,
      ln.Meets (Tame h) P :=
  meets_plain (all_append.mpr ⟨tame_load (by decide) hcode,
    all_singleton.mpr (tame_of_writes_nil ⟨⟨trivial, rfl⟩, rfl⟩ rfl)⟩)

theorem meets_goOn {t : Nat} (ht : P none (.block t)) :
    ∀ ln ∈ Labelled.goOn next t, ln.Meets (Tame h) P := by
  unfold Labelled.goOn
  split_ifs
  · simp
  · simpa [Line.Meets] using ht

theorem meets_assert (hls : Labelled.assert h p v = .ok ls)
    (hdone : P (some .notEqual) (.inside p .done)) : ∀ ln ∈ ls, ln.Meets (Tame h) P := by
  obtain ⟨load, hload, ⟨⟩⟩ := bind_eq_ok.mp hls
  simp only [forall_mem_append, forall_mem_cons]
  exact ⟨meets_tested hload, hdone, tame_of_writes_nil ⟨⟨trivial, rfl⟩, rfl⟩ rfl, trivial, by simp⟩

theorem meets_zero {t : Ty} (hdone : P none (.inside p .done))
    (hpositive : P (some .notNegative) (.inside p .done)) :
    ∀ ln ∈ Labelled.zero p op t size, ln.Meets (Tame h) P := by
  have hload (x : UInt64) : Tame h (.loadImm .rax x) := tame_loadImm (by decide) x
  have htest : Tame h (.test size (.reg .rax) .rax) :=
    tame_of_writes_nil ⟨⟨trivial, rfl⟩, rfl⟩ rfl
  cases op <;> simp [Labelled.zero, Line.Meets, hdone, hpositive, hload, htest]

theorem meets_minusOne (hsize : size ≠ .word)
    (hdivide : isSignedDivision op = true → P (some .notEqual) (.inside p .divide))
    (hdone : P none (.inside p .done)) :
    ∀ ln ∈ Labelled.minusOne p op size, ln.Meets (Tame h) P := by
  have hcmp : Tame h (.aluImm .cmp size (.reg .rcx) (-1)) :=
    tame_scratch (by decide) (straight_cmp hsize) rfl
  unfold Labelled.minusOne
  by_cases hsigned : isSignedDivision op = true
  · rw [if_pos hsigned]
    simp only [forall_mem_cons]
    exact ⟨hcmp, hdivide hsigned, tame_minusOne op size, hdone, trivial, by simp⟩
  · rw [if_neg hsigned]
    simp

theorem meets_division (hsize : size ≠ .word) (hls : Labelled.division h p i op size u v = .ok ls)
    (hnonzero : P (some .notEqual) (.inside p .nonzero))
    (hdivide : isSignedDivision op = true → P (some .notEqual) (.inside p .divide))
    (hpositive : P (some .notNegative) (.inside p .done)) (hdone : P none (.inside p .done)) :
    ∀ ln ∈ ls, ln.Meets (Tame h) P := by
  obtain ⟨first, second, hfirst, hsecond, hls⟩ := bind₂_eq_ok.mp hls
  obtain ⟨back, hback, ⟨⟩⟩ := bind_eq_ok.mp hls
  have hfront : All (Tame h) (first ++ (second ++ [.test size (.reg .rcx) .rcx])) :=
    all_append.mpr ⟨tame_load (by decide) hfirst, all_append.mpr ⟨tame_load (by decide) hsecond,
      all_singleton.mpr (tame_of_writes_nil ⟨⟨trivial, rfl⟩, rfl⟩ rfl)⟩⟩
  have hback : All (Tame h) (mask i.ty .rax ++ back) :=
    all_append.mpr ⟨tame_mask _ (by decide), tame_store hback⟩
  simp only [append_assoc, cons_append, forall_mem_append, forall_mem_cons]
  exact ⟨meets_plain hfront, hnonzero, meets_zero hdone hpositive, trivial,
    meets_minusOne hsize hdivide hdone, meets_plain (tame_divideCode _ _), trivial,
    meets_plain hback⟩

/-- Every jump goes where its instruction means it to, on a condition that has an encoding. Apart from
calls, an instruction works on scratch registers and homes. -/
theorem meets_instr (hcall : ∀ target params, i.op ≠ .call target params)
    (hls : Labelled.instr w g h next p i = .ok ls) :
    ∀ ln ∈ ls, ln.Meets (Tame h) fun c l => Aims p i.op c l ∧ c.all (·.code < 16) := by
  have hstraight (hjumps : jumps i.op = false)
      (hls : (do return (← Select.code h w (index g p) i).map Line.plain) = Except.ok ls) :
      ∀ ln ∈ ls, ln.Meets (Tame h) fun c l => Aims p i.op c l ∧ c.all (·.code < 16) := by
    obtain ⟨code, hcode, ⟨⟩⟩ := bind_eq_ok.mp hls
    exact meets_plain (tame_code hjumps hcall hcode)
  obtain ⟨op, ty, res⟩ := i
  cases op with
  | exit =>
    cases hls
    simpa [Line.Meets] using Aims.exit
  | br c ifFalse ifTrue =>
    cases c with
    | const t x =>
      cases hls
      exact meets_goOn ⟨.selected, rfl⟩
    | var t id =>
      obtain ⟨load, hload, ⟨⟩⟩ := bind_eq_ok.mp hls
      simp only [forall_mem_append, forall_mem_cons]
      exact ⟨meets_tested hload, ⟨.ifTrue, rfl⟩, meets_goOn ⟨.ifFalse, rfl⟩⟩
  | assert c => exact meets_assert hls ⟨.inside (by simp [marks]), rfl⟩
  | binop op x y =>
    simp only [Labelled.instr] at hls
    by_cases hdiv : op.isDivision = true
    · rw [if_pos hdiv] at hls
      refine meets_division (by split_ifs <;> decide) hls ⟨.inside ?_, rfl⟩
        (fun hsigned => ⟨.inside ?_, rfl⟩) ⟨.inside ?_, rfl⟩ ⟨.inside ?_, rfl⟩
      all_goals simp [marks, *]
    · rw [if_neg hdiv] at hls
      exact hstraight (by simpa [jumps] using hdiv) hls
  | call target params => exact absurd rfl (hcall target params)
  | _ => exact hstraight rfl hls

theorem instr_call {target : Option Func} {params : List Value} (hop : i.op = .call target params)
    (hls : Labelled.instr w g h next p i = .ok ls) :
    ∃ code, Select.code h w (index g p) i = .ok code ∧ ls = code.map .plain := by
  simp only [Labelled.instr, hop] at hls
  obtain ⟨code, hcode, hls⟩ := bind_eq_ok.mp hls
  exact ⟨code, hcode, (Except.ok.inj hls).symm⟩

theorem straight_instr (hls : Labelled.instr w g h next p i = .ok ls) :
    ∀ ln ∈ ls, ln.Meets Machine.Instr.Straight fun c l => Aims p i.op c l ∧ c.all (·.code < 16) := by
  by_cases hcall : ∃ target params, i.op = .call target params
  · obtain ⟨target, params, hop⟩ := hcall
    obtain ⟨code, hcode, rfl⟩ := instr_call hop hls
    exact meets_plain (allStraight_code (by rw [hop]; rfl) hcode)
  · intro ln hln
    exact (meets_instr (fun target params hop => hcall ⟨target, params, hop⟩) hls ln hln).imp
      (fun _ hi => hi.1) fun _ _ haims => haims

theorem labels_goOn (next : Option Nat) (t : Nat) : labels (Labelled.goOn next t) = [] := by
  unfold Labelled.goOn
  split_ifs <;> rfl

/-- An instruction has the labels that its jumps go to. -/
theorem labels_instr (hls : Labelled.instr w g h next p i = .ok ls) :
    labels ls = (marks i.op).map (.inside p) := by
  have hstraight (hmarks : marks i.op = [])
      (hls : (do return (← Select.code h w (index g p) i).map Line.plain) = Except.ok ls) :
      labels ls = (marks i.op).map (.inside p) := by
    obtain ⟨code, -, ⟨⟩⟩ := bind_eq_ok.mp hls
    rw [labels_plain, hmarks]
    rfl
  obtain ⟨op, ty, res⟩ := i
  cases op with
  | exit =>
    cases hls
    rfl
  | br c ifFalse ifTrue =>
    cases c with
    | const t x =>
      cases hls
      exact labels_goOn _ _
    | var t id =>
      obtain ⟨load, -, ⟨⟩⟩ := bind_eq_ok.mp hls
      rw [labels_append, labels_plain, labels_cons_jump, labels_goOn]
      rfl
  | assert c =>
    obtain ⟨load, -, ⟨⟩⟩ := bind_eq_ok.mp hls
    simp [marks]
  | binop op x y =>
    simp only [Labelled.instr] at hls
    by_cases hdiv : op.isDivision = true
    · rw [if_pos hdiv] at hls
      obtain ⟨first, second, -, -, hls⟩ := bind₂_eq_ok.mp hls
      obtain ⟨back, -, ⟨⟩⟩ := bind_eq_ok.mp hls
      simp only [append_assoc, cons_append, labels_append, labels_plain,
        labels_cons_jump, labels_zero, labels_cons_label, labels_minusOne, marks, hdiv]
      split_ifs <;> rfl
    · rw [if_neg hdiv] at hls
      exact hstraight (by simp [marks, hdiv]) hls
  | _ => exact hstraight rfl hls

end Instrs

end Dynarec.Native
