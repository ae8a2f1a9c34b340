import Dynarec.Proofs.Native.BlockOrder
import Dynarec.Proofs.Native.Labelled
import Dynarec.Proofs.Native.Position

/-!
# Where jumps arrive

The bytes of a function are the code of a labelled listing of its blocks in the order in which they
are placed. A sweep over the bytes finds the instructions, every jump arrives at its label, and a
block falls through only to the side of its branch that stands behind it.
-/
namespace Dynarec.Native

open Machine Labelled Written List Dynarec.Except

variable {w : Workspace} {next : Option Nat} {c : Option Cond} {items : List Item} {fin : BlockEnd}
  {i : Dynarec.Instr} {k frame : Nat} {ps : List Placed} {ln : Line}

variable {ls body : List Line} {p : Place} {is : List Dynarec.Instr} {done order : List Nat}

/-- Control does not get behind the lines. -/
def Leaves (ls : List Line) : Prop :=
  ∃ l, ls.getLast? = some (.jump none l)

section Listing

variable {g : Graph} {h : Homes} {known : Nat → Prop}

theorem Leaves.append (hls : Leaves ls) (front : List Line) : Leaves (front ++ ls) := by
  obtain ⟨l, hl⟩ := hls
  exact ⟨l, by rw [getLast?_append, hl, Option.some_or]⟩

theorem renders_goOn (next : Option Nat) (t : Nat) (later : Option Nat) :
    Renders (goOn next t) ((BlockEnd.falls t later).closing next) := by
  simp only [goOn, BlockEnd.closing]
  split_ifs
  · exact .nil
  · exact .jump none (.block t)

theorem leaves_goOn (next : Option Nat) (t : Nat) :
    Leaves (goOn next t) ∨ next = some t := by
  unfold goOn
  split_ifs with hnext
  · exact Or.inr hnext
  · exact Or.inl ⟨_, rfl⟩

theorem renders_branch {label : Nat} {c : Value} {ifFalse ifTrue : Int}
    (hcode : Branches g h label c ifFalse ifTrue items fin) (hfin : stopOf fin = none)
    (next : Option Nat) :
    ∃ ls, branch h next ifFalse.toNat ifTrue.toNat c = .ok ls ∧
      Renders ls (items ++ fin.closing next) := by
  cases hcode with
  | stopped => cases hfin
  | const hc =>
    subst hc
    exact ⟨_, rfl, renders_goOn _ _ none⟩
  | var hload _ _ hvar =>
    obtain ⟨t, id, rfl⟩ := hvar
    refine ⟨_, bind_eq_ok.mpr ⟨_, hload, rfl⟩, ?_⟩
    rw [append_assoc]
    exact (Renders.plain _).append ((Renders.jump _ (.block _)).append (renders_goOn _ _ _))

theorem renders_instrs (T : g.Typed) (his : g.From p is)
    (hcode : Layout.blockCode w g h p.label (index g p) is = (items, fin))
    (hfin : stopOf fin = none) (next : Option Nat) :
    ∃ ls, instrs w g h next p is = .ok ls ∧ Renders ls (items ++ fin.closing next) := by
  induction is generalizing p items with
  | nil =>
    cases hcode
    cases hfin
  | cons i rest ih =>
    obtain ⟨-, hrest⟩ := his.cons
    have hlast (hterm : i.isTerminator = true) {ls : List Line}
        (hls : instr w g h next p i = .ok ls) :
        instrs w g h next p (i :: rest) = .ok ls := by
      rw [(his.eq_nil_iff T).mpr hterm]
      refine bind₂_eq_ok.mpr ⟨ls, [], hls, rfl, ?_⟩
      rw [append_nil]
      rfl
    cases begins_blockCode hcode with
    | stopped => cases hfin
    | exit hop =>
      refine ⟨_, hlast (by simp [Instr.isTerminator, hop, Op.isTerminator]) ?_,
        .jump none .epilogue⟩
      rw [instr, hop]
      rfl
    | branch hop hbranch =>
      obtain ⟨ls, hls, hrenders⟩ := renders_branch hbranch hfin next
      refine ⟨ls, hlast (by simp [Instr.isTerminator, hop, Op.isTerminator]) ?_, hrenders⟩
      rw [instr, hop]
      exact hls
    | instr hterm hinstr hcode =>
      obtain ⟨ls, hls, hrenders⟩ := renders_code next hterm (instrCode_ok hinstr).2
      obtain ⟨ls', hls', hrenders'⟩ := ih (p := p.succ) hrest hcode
      refine ⟨ls ++ ls', bind₂_eq_ok.mpr ⟨ls, ls', hls, hls', rfl⟩, ?_⟩
      rw [append_assoc]
      exact hrenders.append hrenders'

/-- Behind a terminator stands a jump, or the block that control falls through to comes next. -/
theorem leaves_instr (hterm : i.isTerminator = true) (hend : g.EndsIn p.label i.op)
    (hls : instr w g h next p i = .ok ls) :
    Leaves ls ∨ ∃ t, next = some t ∧ g.FallsTo p.label t := by
  obtain ⟨op, ty, res⟩ := i
  cases op with
  | exit =>
    cases hls
    exact Or.inl ⟨_, rfl⟩
  | br c ifFalse ifTrue =>
    cases c with
    | const t x =>
      cases hls
      exact (leaves_goOn _ _).imp_right fun hnext => ⟨_, hnext, .selected hend⟩
    | var t id =>
      obtain ⟨load, -, ⟨⟩⟩ := bind_eq_ok.mp hls
      rcases leaves_goOn next ifFalse.toNat with hleaves | hnext
      · rw [append_cons]
        exact Or.inl (hleaves.append _)
      · exact Or.inr ⟨_, hnext, .ifFalse hend⟩
  | _ => cases hterm

theorem leaves_instrs (T : g.Typed) (his : g.From p is) (hne : is ≠ [])
    (hls : instrs w g h next p is = .ok ls) :
    Leaves ls ∨ ∃ t, next = some t ∧ g.FallsTo p.label t := by
  induction is generalizing p ls with
  | nil => exact absurd rfl hne
  | cons i rest ih =>
    obtain ⟨hi, hrest⟩ := his.cons
    obtain ⟨first, back, hfirst, hback, ⟨⟩⟩ := bind₂_eq_ok.mp hls
    by_cases hterm : i.isTerminator = true
    · obtain rfl := (his.eq_nil_iff T).mpr hterm
      cases hback
      rw [append_nil]
      exact leaves_instr hterm (T.endsIn hi hterm) hfirst
    · have hmore : rest ≠ [] := fun hnil => hterm ((his.eq_nil_iff T).mp hnil)
      exact (ih (p := p.succ) hrest hmore hback).imp_left fun hleaves => hleaves.append _

/-- The lines of a block, and how they end. -/
theorem renders_block (T : g.Typed) (hk : k < g.blocks.size)
    (hcode : wholeBlock w g h k = (items, fin)) (hfin : stopOf fin = none) (next : Option Nat) :
    ∃ ls, block w g h next k = .ok ls ∧ Renders ls (items ++ fin.closing next) ∧
      (Leaves ls ∨ ∃ t, next = some t ∧ g.FallsTo k t) := by
  obtain ⟨ls, hls, hrenders⟩ := renders_instrs T (Graph.from_block hk) hcode hfin next
  refine ⟨ls, hls, hrenders, leaves_instrs T (Graph.from_block hk) ?_ hls⟩
  have hb := Array.getElem?_eq_getElem hk
  rw [hb]
  exact (T.block hb).2.1

/-- The lines are those of the blocks, each of which starts at its label. -/
structure Displays (ls : List Line) (ps : List Placed) : Prop where
  renders : Renders ls (ps.flatMap Placed.items)
  starts : ∀ {front p back}, ps = front ++ p :: back → ∃ above below,
    ls = above ++ .label (.block p.label) :: below ∧
      linesLength above = itemsLength (front.flatMap Placed.items)

theorem displays_blocks (T : g.Typed) {ks : List Nat} (hlinked : linked w g h ks = (ps, none))
    (hinside : ∀ k ∈ ks, k < g.blocks.size) :
    ∃ ls, blocks w g h ks = .ok ls ∧ Displays ls ps := by
  induction ks generalizing ps with
  | nil =>
    cases hlinked
    exact ⟨[], rfl, .nil, by simp⟩
  | cons k ks ih =>
    rw [forall_mem_cons] at hinside
    obtain ⟨items, fin, ps, hcode, hfin, rfl, hps⟩ := linked_eq_cons hlinked
    obtain ⟨ls, hls, hrenders, -⟩ := renders_block T hinside.1 hcode hfin ks.head?
    obtain ⟨ls', hls', hrenders', hstarts⟩ := ih hps hinside.2
    refine ⟨.label (.block k) :: ls ++ ls', bind₂_eq_ok.mpr ⟨ls, ls', hls, hls', rfl⟩,
      (hrenders.label _).append hrenders', ?_⟩
    intro front q back hsplit
    rcases cons_eq_append_iff.mp hsplit with ⟨rfl, hq⟩ | ⟨front', rfl, hfront⟩
    · cases hq
      exact ⟨[], ls ++ ls', rfl, rfl⟩
    · obtain ⟨above, below, rfl, hlength⟩ := hstarts hfront
      refine ⟨.label (.block k) :: ls ++ above, below, by simp, ?_⟩
      rw [flatMap_cons, itemsLength_append, ← hlength, ← hrenders.length]
      simp

theorem labels_instrs (hls : instrs w g h next p is = .ok ls) :
    (labels ls).Nodup ∧ ∀ l ∈ labels ls, ∃ n m, p.offset ≤ n ∧ l = .inside ⟨p.label, n⟩ m := by
  induction is generalizing p ls with
  | nil =>
    cases hls
    simp
  | cons i rest ih =>
    obtain ⟨first, back, hfirst, hback, ⟨⟩⟩ := bind₂_eq_ok.mp hls
    obtain ⟨hnodup, hown⟩ := ih hback
    have hlabels := labels_instr hfirst
    rw [labels_append]
    constructor
    · refine nodup_append.mpr ⟨?_, hnodup, ?_⟩
      · rw [hlabels]
        exact (nodup_marks i.op).map fun m m' heq => (Label.inside.inj heq).2
      · rintro l hl l' hl' rfl
        rw [hlabels] at hl
        obtain ⟨m, -, rfl⟩ := mem_map.mp hl
        obtain ⟨n, m', hn, heq⟩ := hown _ hl'
        have hoffset := congrArg Place.offset (Label.inside.inj heq).1
        simp only [Place.succ] at hn hoffset
        omega
    · intro l hl
      rcases mem_append.mp hl with hl | hl
      · rw [hlabels] at hl
        obtain ⟨m, -, rfl⟩ := mem_map.mp hl
        exact ⟨p.offset, m, le_rfl, rfl⟩
      · obtain ⟨n, m, hn, rfl⟩ := hown l hl
        exact ⟨n, m, (Nat.le_succ _).trans hn, rfl⟩

theorem labels_blocks (hnodup : order.Nodup) (hls : blocks w g h order = .ok ls) :
    (labels ls).Nodup ∧
      ∀ l ∈ labels ls, ∃ k ∈ order, l = .block k ∨ ∃ n m, l = .inside ⟨k, n⟩ m := by
  induction order generalizing ls with
  | nil =>
    cases hls
    simp
  | cons k order ih =>
    obtain ⟨hk, hnodup⟩ := nodup_cons.mp hnodup
    obtain ⟨first, back, hfirst, hback, ⟨⟩⟩ := bind₂_eq_ok.mp hls
    obtain ⟨hnodup', hown'⟩ := ih hnodup hback
    obtain ⟨hinner, hown⟩ := labels_instrs hfirst
    have hfront : ∀ l ∈ labels (.label (.block k) :: first),
        l = .block k ∨ ∃ n m, l = .inside ⟨k, n⟩ m := by
      intro l hl
      rcases mem_cons.mp hl with rfl | hl
      · exact Or.inl rfl
      · obtain ⟨n, m, -, rfl⟩ := hown l hl
        exact Or.inr ⟨n, m, rfl⟩
    rw [labels_append]
    constructor
    · refine nodup_append.mpr ⟨nodup_cons.mpr ⟨?_, hinner⟩, hnodup', ?_⟩
      · intro hl
        obtain ⟨n, m, -, heq⟩ := hown _ hl
        cases heq
      · rintro l hl l' hl' rfl
        obtain ⟨k', hk', hl'⟩ := hown' l hl'
        have hne : k ≠ k' := fun heq => hk (heq ▸ hk')
        rcases hfront l hl with rfl | ⟨n, m, rfl⟩ <;> rcases hl' with heq | ⟨n', m', heq⟩
        all_goals cases heq
        all_goals exact hne rfl
    · intro l hl
      rcases mem_append.mp hl with hl | hl
      · exact ⟨k, mem_cons_self, hfront l hl⟩
      · obtain ⟨k', hk', hl'⟩ := hown' l hl
        exact ⟨k', mem_cons_of_mem _ hk', hl'⟩

theorem exists_instr_of_mem (his : g.From p is) (hls : instrs w g h next p is = .ok ls)
    (hln : ln ∈ ls) :
    ∃ n i own, g.instrAt? ⟨p.label, n⟩ = some i ∧
      instr w g h next ⟨p.label, n⟩ i = .ok own ∧ ln ∈ own ∧ own ⊆ ls := by
  induction is generalizing p ls with
  | nil =>
    cases hls
    cases hln
  | cons i rest ih =>
    obtain ⟨hi, hrest⟩ := his.cons
    obtain ⟨first, back, hfirst, hback, ⟨⟩⟩ := bind₂_eq_ok.mp hls
    rcases mem_append.mp hln with hln | hln
    · exact ⟨p.offset, i, first, hi, hfirst, hln, subset_append_left _ _⟩
    · obtain ⟨n, j, own, hj, hown, hmem, hsub⟩ := ih (p := p.succ) hrest hback hln
      exact ⟨n, j, own, hj, hown, hmem, Subset.trans hsub (subset_append_right _ _)⟩

/-- A line is the label of a placed block, or a line of one of its instructions. -/
theorem exists_block_of_mem (hinside : ∀ k ∈ order, k < g.blocks.size)
    (hls : blocks w g h order = .ok ls) (hln : ln ∈ ls) :
    ∃ k ∈ order, ln = .label (.block k) ∨
      ∃ next n i own, g.instrAt? ⟨k, n⟩ = some i ∧
        instr w g h next ⟨k, n⟩ i = .ok own ∧ ln ∈ own ∧ own ⊆ ls := by
  induction order generalizing ls with
  | nil =>
    cases hls
    cases hln
  | cons k order ih =>
    rw [forall_mem_cons] at hinside
    obtain ⟨first, back, hfirst, hback, ⟨⟩⟩ := bind₂_eq_ok.mp hls
    rcases mem_append.mp hln with hln | hln
    · refine ⟨k, mem_cons_self, ?_⟩
      rcases mem_cons.mp hln with rfl | hln
      · exact Or.inl rfl
      · obtain ⟨n, i, own, hi, hown, hmem, hsub⟩ :=
          exists_instr_of_mem (Graph.from_block hinside.1) hfirst hln
        refine Or.inr ⟨_, n, i, own, hi, hown, hmem, fun ln hln => ?_⟩
        exact mem_append_left _ (mem_cons_of_mem _ (hsub hln))
    · obtain ⟨k', hk', hcases⟩ := ih hinside.2 hback hln
      refine ⟨k', mem_cons_of_mem _ hk', hcases.imp_right ?_⟩
      rintro ⟨next, n, i, own, hi, hown, hmem, hsub⟩
      exact ⟨next, n, i, own, hi, hown, hmem, Subset.trans hsub (subset_append_right _ _)⟩

/-- The jumps of a branch go to blocks that control can go to. -/
theorem Aims.flows (T : g.Typed) {t : Nat} (hi : g.instrAt? p = some i)
    (haims : Aims p i.op c (.block t)) : g.Flows p.label t := by
  have hend (hterm : i.isTerminator = true) := T.endsIn hi hterm
  unfold Instr.isTerminator at hend
  generalize i.op = op at haims hend
  cases haims with
  | selected => exact .falls (.selected (hend rfl))
  | ifFalse => exact .falls (.ifFalse (hend rfl))
  | ifTrue => exact .ifTrue (hend rfl)

end Listing

/-- How a function is laid out: the order of its blocks, its listing, its code and its bytes. -/
structure LaidOut (w : Workspace) (g : Graph) (h : Homes) (order : List Nat) (lines : List Line)
    (code : Code) (bytes : List UInt8) : Prop where
  /-- The blocks that control can come to are placed, once each. -/
  once : order.Nodup
  placed : ∀ {k}, k ∈ order ↔ g.Reachable k
  listed : function w g h order = .ok lines
  distinct : (labels lines).Nodup
  fills : Fills lines code
  encoded : bytes = code.flatMap Machine.Instr.encode
  /-- Decoding goes from instruction to instruction. -/
  swept : chunks bytes = code.map fun i => ⟨i.encode, .instr i.cut⟩
  lands : Lands lines code
  /-- A jump goes where its instruction means it to; a point inside is one of its own. -/
  aims : ∀ {next p i own c l}, instr w g h next p i = .ok own → .jump c l ∈ own →
    Aims p i.op c l ∧ ∀ m, l = .inside p m → .label l ∈ own
  /-- Control that falls off the end of a block comes to the side of its branch that is not
  jumped to. -/
  falls : ∀ {front k back}, order = front ++ k :: back →
    ∃ own, block w g h back.head? k = .ok own ∧
      (Leaves own ∨ ∃ t, back.head? = some t ∧ g.FallsTo k t)

section Function

variable {g : Graph} {h : Homes} {rs : List (List Placed)}

theorem aims_instr {own : List Line} {l : Label} (hown : instr w g h next p i = .ok own)
    (hjump : .jump c l ∈ own) : Aims p i.op c l ∧ ∀ m, l = .inside p m → .label l ∈ own := by
  have haims : Aims p i.op c l := (straight_instr hown _ hjump).1
  refine ⟨haims, fun m hl => ?_⟩
  rw [← mem_labels, labels_instr hown]
  subst hl
  generalize i.op = op at haims ⊢
  cases haims with
  | inside hm => exact mem_map_of_mem hm

theorem mem_enclose :
    ln ∈ enclose frame body ↔ ln ∈ (prologue frame).map Line.plain ∨ ln ∈ body ∨
      ln = .label .epilogue ∨ ln ∈ epilogue.map Line.plain := by
  rw [enclose, append_assoc, mem_append, mem_append, mem_cons]

theorem getLast?_enclose (frame : Nat) (body : List Line) :
    (enclose frame body).getLast? = some (.plain .ret) := by
  rw [enclose, getLast?_append]
  rfl

/-- The code of a written function is that of the lines of its blocks. -/
theorem emit_enclose {addr : Label → Nat} (hbody : Displays body ps)
    (hplaces : ∀ {c t}, .jump c t ∈ ps.flatMap Placed.items → HasPlace ⟨frame, 0, ps⟩ t)
    (hagrees : Agrees addr 0 (enclose frame body)) :
    emit addr 0 (enclose frame body) = code ⟨frame, 0, ps⟩ := by
  let f : Written := ⟨frame, 0, ps⟩
  have hepilogue := Agrees.label hagrees
  have hlines := (agrees_append.mp (agrees_append.mp hagrees).1).2
  rw [linesLength_append] at hepilogue
  rw [linesLength_plain] at hlines hepilogue
  -- labels and targets agree
  have htarget : ∀ {t}, f.HasPlace t → addr t.label = f.target t := by
    intro t ht
    cases t with
    | epilogue =>
      rw [target_epilogue, Target.label, hepilogue, hbody.renders.length, ← Nat.add_assoc]
      rfl
    | block k =>
      obtain ⟨front, items, back, hblocks, hk, -⟩ := at_block ht 0
      obtain ⟨above, below, hsplit, hlength⟩ := hbody.starts hblocks
      rw [hsplit] at hlines
      rw [hk, Target.label, hlines.label, hlength]
      rfl
  have hresolve : resolve (fun t => addr t.label) (0 + f.first) f.items =
      resolve f.target f.first f.items :=
    resolve_shift _ fun hjump => (htarget (hplaces hjump)).trans (Nat.zero_add _).symm
  rw [Nat.zero_add] at hresolve
  have hcode := hbody.renders.emit hlines
  rw [enclose, emit_append, emit_append, emit_plain, linesLength_plain, hcode,
    append_assoc]
  show prologue frame ++ (resolve (fun t => addr t.label) f.first f.items ++
    ([] ++ emit addr _ (epilogue.map .plain))) = f.code
  rw [hresolve, emit_plain]
  rfl

/-- Every jump of a function has its label there, and an encoding. No other line jumps. -/
theorem meets_enclose (T : g.Typed) (hbody : blocks w g h order = .ok body)
    (hplaced : ∀ {k}, k ∈ order ↔ g.Reachable k) (hinside : ∀ k ∈ order, k < g.blocks.size)
    (hstarts : ∀ k ∈ order, .label (.block k) ∈ body) (frame : Nat) :
    ∀ ln ∈ enclose frame body, ln.Meets Machine.Instr.Straight fun c l =>
      .label l ∈ enclose frame body ∧ c.all (·.code < 16) := by
  intro ln hln
  rcases mem_enclose.mp hln with hln | hln | rfl | hln
  · exact meets_plain (allStraight_prologue frame) ln hln
  · obtain ⟨k, hk, rfl | ⟨next, n, i, own, hi, hown, hmem, hsub⟩⟩ :=
      exists_block_of_mem hinside hbody hln
    · trivial
    · have hmeets := straight_instr hown ln hmem
      cases ln with
      | plain j => exact hmeets
      | label l => trivial
      | jump c l =>
        obtain ⟨haims, hinner⟩ := aims_instr hown hmem
        refine ⟨mem_enclose.mpr ?_, hmeets.2⟩
        cases l with
        | epilogue => exact Or.inr (Or.inr (Or.inl rfl))
        | block t =>
          have ht := (hplaced.mp hk).tail (haims.flows T hi)
          exact Or.inr (Or.inl (hstarts t (hplaced.mpr ht)))
        | inside p m =>
          have hp : p = ⟨k, n⟩ := by
            generalize i.op = op at haims
            cases haims
            rfl
          subst hp
          exact Or.inr (Or.inl (hsub (hinner m rfl)))
  · trivial
  · exact meets_plain allStraight_epilogue ln hln

theorem nodup_labels_enclose (hnodup : order.Nodup) (hbody : blocks w g h order = .ok body)
    (frame : Nat) : (labels (enclose frame body)).Nodup := by
  obtain ⟨hlabels, hown⟩ := labels_blocks hnodup hbody
  simp only [enclose, labels_append, labels_plain, labels_cons_label, nil_append]
  refine nodup_append.mpr ⟨hlabels, nodup_singleton _, ?_⟩
  rintro l hl l' hl' rfl
  cases mem_singleton.mp hl'
  obtain ⟨k, -, heq | ⟨n, m, heq⟩⟩ := hown _ hl <;> cases heq

/-- The code of a layout that comes to an end is that of a labelled listing. -/
theorem emit_layout (T : g.Typed) (hne : 0 < g.blocks.size) (hlayout : layout w g h = (rs, none)) :
    ∃ body, blocks w g h (rs.flatten.map Placed.label) = .ok body ∧
      (labels (enclose h.frameSize body)).Nodup ∧
      (∀ ln ∈ enclose h.frameSize body, ln.Meets Machine.Instr.Straight fun c l =>
        .label l ∈ enclose h.frameSize body ∧ c.all (·.code < 16)) ∧
      ∃ addr, Agrees addr 0 (enclose h.frameSize body) ∧
        emit addr 0 (enclose h.frameSize body) =
          code ⟨h.frameSize, 0, rs.flatten⟩ := by
  obtain ⟨hlinked, hnodup, hplaced, hinside⟩ := layout_order T hne hlayout
  obtain ⟨body, hbody, hdisplays⟩ := displays_blocks T hlinked hinside
  have hlabels := nodup_labels_enclose hnodup hbody h.frameSize
  have hagrees : Agrees (fun l => offsetOf l (enclose h.frameSize body)) 0
      (enclose h.frameSize body) :=
    agrees_of_nodup hlabels fun l _ => (Nat.zero_add _).symm
  have hstarts : ∀ k ∈ rs.flatten.map Placed.label, .label (.block k) ∈ body := by
    intro k hk
    obtain ⟨p, hp, rfl⟩ := mem_map.mp hk
    obtain ⟨front, back, hsplit⟩ := append_of_mem hp
    obtain ⟨above, below, hlines, -⟩ := hdisplays.starts hsplit
    simp [hlines]
  exact ⟨body, hbody, hlabels, meets_enclose T hbody (hplaced _) hinside hstarts _, _, hagrees,
    emit_enclose hdisplays
      (fun hjump => hasPlace_of_jump (layout_chained hne hlayout).2 hjump) hagrees⟩

/-- Code does not depend on where it stands. -/
theorem Written.code_offset (hne : 0 < g.blocks.size) (hlayout : layout w g h = (rs, none))
    (n : Nat) : code ⟨h.frameSize, n, rs.flatten⟩ =
      code ⟨h.frameSize, 0, rs.flatten⟩ :=
  code_shift fun hjump => hasPlace_of_jump (layout_chained hne hlayout).2 hjump

/-- A written function is read as it is written. -/
theorem allRegular_written (T : g.Typed) (hne : 0 < g.blocks.size)
    (hlayout : layout w g h = (rs, none)) (n : Nat) :
    AllRegular (code ⟨h.frameSize, n, rs.flatten⟩) := by
  obtain ⟨body, -, -, hmeets, addr, -, hcode⟩ := emit_layout T hne hlayout
  rw [code_offset hne hlayout, ← hcode]
  exact allRegular_emit hmeets fun hjump => hjump.2

/-- A layout that comes to an end is one of a labelled listing. -/
theorem laidOut_of_layout (T : g.Typed) (hne : 0 < g.blocks.size)
    (hlayout : layout w g h = (rs, none))
    (hshort : codeLength (code ⟨h.frameSize, 0, rs.flatten⟩) < 2 ^ 31) :
    ∃ lines, LaidOut w g h (rs.flatten.map Placed.label) lines
      (code ⟨h.frameSize, 0, rs.flatten⟩)
      ((code ⟨h.frameSize, 0, rs.flatten⟩).flatMap Machine.Instr.encode) := by
  obtain ⟨hlinked, hnodup, hplaced, hinside⟩ := layout_order T hne hlayout
  obtain ⟨body, hbody, hlabels, hmeets, addr, hagrees, hcode⟩ := emit_layout T hne hlayout
  rw [← hcode, codeLength_emit] at hshort
  refine ⟨enclose h.frameSize body, hnodup, hplaced _,
    bind_eq_ok.mpr ⟨body, hbody, rfl⟩, hlabels, hcode ▸ fills_emit _ _ _, rfl,
    chunks_flatMap_encode (allRegular_written T hne hlayout 0), ?_, aims_instr, ?_⟩
  · rw [← hcode]
    exact lands_emit hagrees hshort (fun hi => (hmeets _ hi).2) (fun hjump => (hmeets _ hjump).1)
      (getLast?_enclose _ _)
  · intro front k back horder
    obtain ⟨own, hown, -, hends⟩ := renders_block T (hinside k (by simp [horder])) rfl
      (linked_proceeds hlinked (by simp [horder])) back.head?
    exact ⟨own, hown, hends⟩

namespace Fork

/-- A value is asserted to be small on one side of a branch. Both sides go on to the last block; the
block before it is only named by branches that are decided already. -/
def graph : Graph where
  blocks := #[
    ⟨0, [⟨.read 0, .i32, 0⟩, ⟨.icmp .ult (.var .i32 0) (.const .i32 10), .i1, 1⟩,
      ⟨.br (.var .i1 1) 1 2, .void, 0⟩]⟩,
    ⟨1, [⟨.br (.const .i1 1) 3 4, .void, 0⟩]⟩,
    ⟨2, [⟨.assert (.var .i1 1), .void, 0⟩, ⟨.br (.const .i1 0) 4 3, .void, 0⟩]⟩,
    ⟨3, [⟨.exit, .void, 0⟩]⟩,
    ⟨4, [⟨.exit, .void, 0⟩]⟩]
  varCount := 2

def workspace : Workspace := ⟨1, #[⟨.i32, "a", 0x2000⟩], ⟨1, 7, 0⟩, ⟨1, 7, 0⟩⟩

theorem accepted : graph.typecheck = .accepted := by
  decide +kernel

def code : Assembled := ⟨0, 98, 8, 0⟩

theorem assembled : (assemble workspace { capacity := 256 } graph).1 = .ok code := by
  cbv

theorem reachable_cases (hk : graph.Reachable k) : k = 0 ∨ k = 1 ∨ k = 2 ∨ k = 4 := by
  induction hk with
  | refl => exact Or.inl rfl
  | tail _ hflows ih =>
    have hside := Graph.flows_iff_sides.mp hflows
    rcases ih with rfl | rfl | rfl | rfl
    all_goals
      simp [Graph.sides, graph, Block.tail?] at hside
      try omega

end Fork

end Function

end Dynarec.Native
