import Dynarec.Proofs.Native.Layout
import Mathlib

/-!
# Code at any position

The distances of the jumps of a function do not depend on where it stands, so a graph has one code.
Assembly writes it wherever there is room for all of it and fails for want of room elsewhere; a
failure for any other reason is a failure in every buffer.
-/
namespace Dynarec.Native

open Machine

/-- Code that is moved together with its targets does not change. -/
theorem resolve_shift {target target' : Target → Nat} {distance : Nat} (pos : Nat)
    {items : List Item}
    (hshift : ∀ {c t}, .jump c t ∈ items → target' t = distance + target t) :
    resolve target' (distance + pos) items = resolve target pos items := by
  induction items generalizing pos with
  | nil => rfl
  | cons it items ih =>
    have hrest : resolve target' (distance + pos + it.length) items =
        resolve target (pos + it.length) items := by
      rw [Nat.add_assoc]
      exact ih (pos + it.length) fun hjump => hshift (List.mem_cons_of_mem _ hjump)
    cases it with
    | plain i => simp only [resolve, hrest]
    | jump c t =>
      have ht := hshift (List.mem_cons_self (a := Item.jump c t))
      have hdistance (n : Nat) : ((target' t : Int) - (distance + pos + n : Nat)) =
          (target t : Int) - (pos + n : Nat) := by
        omega
      simp only [resolve, hrest, hdistance]

namespace Written

theorem HasPlace.target_shift {frame start : Nat} {blocks : List Placed} {t : Target}
    (ht : HasPlace ⟨frame, start, blocks⟩ t) :
    target ⟨frame, start, blocks⟩ t = start + target ⟨frame, 0, blocks⟩ t := by
  cases t with
  | epilogue =>
    rw [target_epilogue, target_epilogue]
    simp only [first, items]
    omega
  | block label =>
    obtain ⟨front, items, back, -, hlookup⟩ := places_lookup ht
    simp only [target, Target.offset, hlookup, first, Option.getD_some]
    omega

/-- A function whose jumps have a place is the same everywhere. -/
theorem code_shift {frame start : Nat} {blocks : List Placed}
    (hplaces : ∀ {c t}, .jump c t ∈ blocks.flatMap Placed.items →
      HasPlace ⟨frame, start, blocks⟩ t) :
    code ⟨frame, start, blocks⟩ = code ⟨frame, 0, blocks⟩ := by
  have hbody : body ⟨frame, start, blocks⟩ = body ⟨frame, 0, blocks⟩ := by
    simp only [body, first, items, Nat.zero_add]
    exact resolve_shift _ fun hjump => (hplaces hjump).target_shift
  rw [code, code, hbody]

end Written

variable {w : Workspace} {g : Graph} {h : Homes} {b b' : CodeBuffer}

/-- The code of a graph, given its blocks in their order. -/
def codeBytes (h : Homes) (blocks : List Placed) : List UInt8 :=
  (Written.code ⟨h.frameSize, 0, blocks⟩).flatMap Instr.encode

theorem length_codeBytes (h : Homes) (blocks : List Placed) :
    (codeBytes h blocks).length = codeLength (prologue h.frameSize) +
      (itemsLength (blocks.flatMap Placed.items) + codeLength epilogue) := by
  rw [codeBytes, length_flatMap_encode, Written.codeLength_code]
  rfl

theorem codeNeed_eq {rs : List (List Placed)} (hlayout : layout w g h = (rs, none)) :
    codeNeed w g h = (codeBytes h rs.flatten).length := by
  simp only [codeNeed, hlayout, runsRoom_none, length_codeBytes, if_true]

/-- Assembly kept the position of its buffer and what stands before it. -/
def Unmoved (b b' : CodeBuffer) : Prop :=
  b.Keeps b' ∧ b'.offset = b.offset

theorem unmoved_of_error (hb : Ready b) {f : AssembleFailure}
    (hfail : assemble w b g = (.error f, b')) : Unmoved b b' := by
  obtain ⟨hkeeps, -, hoffset⟩ := assemble_error hb hfail
  exact ⟨hkeeps, hoffset⟩

/-- The code of a graph that some buffer took is written wherever there is room for it. -/
theorem assemble_of_room {b₁ : CodeBuffer} {code₁ : Assembled} (hb₁ : Ready b₁)
    (hok₁ : (assemble w b₁ g).1 = .ok code₁) :
    ∃ (c : List UInt8) (frame spilled : Nat), ∀ b, Ready b →
      (b.offset + c.length ≤ b.capacity → ∃ b', b.Appends c b' ∧
        assemble w b g = (.ok ⟨b.offset.toNat, c.length, frame, spilled⟩, b')) ∧
      (b.capacity < b.offset + c.length → ∃ f b', f.IsOverflow ∧ Unmoved b b' ∧
        assemble w b g = (.error f, b')) := by
  obtain ⟨-, h, hprepare, hwrite₁, -⟩ := assemble_eq_ok (Prod.ext hok₁ rfl)
  obtain ⟨hempty, -⟩ := prepare_eq_ok.mp hprepare
  obtain ⟨hstop, -⟩ := writeCode_appends hb₁ hwrite₁
  have hlayout : layout w g h = ((layout w g h).1, none) := Prod.ext rfl hstop
  have hchained := (layout_chained (Array.size_pos_iff.mpr (Array.isEmpty_eq_false_iff.mp hempty))
    hlayout).2
  refine ⟨codeBytes h (layout w g h).1.flatten, h.frameSize, h.spilled, fun b hb => ?_⟩
  have heq := hb.assemble_eq hprepare w
  have hends := (writeCode_ends w g h hb).2
  rw [codeNeed_eq hlayout] at hends
  generalize writeCode w g h b = r at heq hends
  obtain ⟨failure, done⟩ := r
  rcases hends with ⟨f, rfl, hover, hfull⟩ | ⟨rfl, hroom, happends⟩
  · refine ⟨fun hroom => absurd hroom (not_le.mpr hfull), fun _ => ?_⟩
    exact ⟨f, _, hover, unmoved_of_error hb heq, heq⟩
  · refine ⟨fun _ => ⟨done, ?_⟩, fun hfull => absurd hroom (not_le.mpr hfull)⟩
    have happends := happends hstop
    rw [Written.code_shift fun hjump => Written.hasPlace_of_jump hchained hjump] at happends
    have hlow := hb.inside.low
    have hoffset : done.offset = b.offset + (codeBytes h (layout w g h).1.flatten).length :=
      happends.offset
    have hlength : done.offset.toNat - b.offset.toNat =
        (codeBytes h (layout w g h).1.flatten).length := by
      omega
    rw [hstop] at heq
    exact ⟨happends, by rw [heq, ← hlength]; rfl⟩

/-- What keeps a graph out of a buffer, if it is not room, keeps it out of all of them. -/
theorem assemble_error_of_error {b₁ : CodeBuffer} {f₁ : AssembleFailure} (hb₁ : Ready b₁)
    (hfail₁ : (assemble w b₁ g).1 = .error f₁) (hother : ¬ f₁.IsOverflow) (hb : Ready b) :
    ∃ f, (assemble w b g).1 = .error f := by
  by_contra hok
  cases hasm : (assemble w b g).1 with
  | error f => exact hok ⟨f, hasm⟩
  | ok code =>
    obtain ⟨c, frame, spilled, hc⟩ := assemble_of_room hb hasm
    obtain ⟨hfits, hfull⟩ := hc b₁ hb₁
    rcases le_or_gt (b₁.offset + c.length) b₁.capacity with hroom | hroom
    · obtain ⟨b', -, hok₁⟩ := hfits hroom
      simp [hok₁] at hfail₁
    · obtain ⟨f, b', hover, -, hf⟩ := hfull hroom
      rw [hf] at hfail₁
      cases hfail₁
      exact hother hover

namespace Toggle

/-- The bits of a register are inverted, and control jumps to the epilogue. -/
def graph : Graph where
  blocks := #[⟨0, [⟨.read 0, .i8, 0⟩, ⟨.not (.var .i8 0), .i8, 1⟩,
    ⟨.write 0 (.var .i8 1), .void, 0⟩, ⟨.exit, .void, 0⟩]⟩]
  varCount := 2

def workspace : Workspace := ⟨1, #[⟨.i8, "flags", 0x2000⟩], ⟨1, 4, 0⟩, ⟨1, 4, 0⟩⟩

def code : Assembled := ⟨0, 73, 8, 0⟩

theorem assembled : (assemble workspace { capacity := 256 } graph).1 = .ok code := by
  cbv

theorem ready {offset : Int} (hlow : 0 ≤ offset) (hhigh : offset ≤ 256) :
    Ready { capacity := 256, offset } :=
  ⟨⟨hlow, hhigh, by norm_num⟩, rfl⟩

end Toggle

end Dynarec.Native
