import Dynarec.Proofs.Native.Layout
import Dynarec.Proofs.Native.LiveRanges

/-!
# Homes in the frame

Room in the frame is taken from one end, rounded up to a multiple of its size, and addressed from the
other end, below the registers that the prologue saves. So no two homes share a byte, each home is
aligned, and all of them lie between the saved registers and the stack pointer.
-/
namespace Dynarec.Native

def Home.isSpill : Home → Bool
  | spill _ _ => true
  | none | reg _ | slot _ _ => false

namespace Homes

variable {h : Homes}

/-- Homes in the frame are aligned below a frame pointer that is, and spilled variables are counted. -/
structure Tidy (h : Homes) : Prop where
  aligned : ∀ {v disp size}, (h.homeOf v).range? = some (disp, size) →
    size ∣ 8 ∧ (size : Int) ∣ disp
  counted : h.spilled = h.homes.toList.countP Home.isSpill

theorem Tidy.put (ht : Tidy h) {v : Nat} (hv : v < h.homes.size) (hnone : h.homeOf v = .none)
    (home : Home) (hhome : ∀ {disp size}, home.range? = some (disp, size) →
      size ∣ 8 ∧ (size : Int) ∣ disp) (frame : Nat) :
    Tidy { h.put v home with frame, spilled := h.spilled + if home.isSpill then 1 else 0 } := by
  constructor
  · intro u disp size hu
    simp only [homeOf, Homes.put] at hu
    rw [homeOf_put hv] at hu
    split_ifs at hu
    · exact hhome hu
    · exact ht.aligned hu
  · have hentry : h.homes.toList[v] = .none := by
      simpa [homeOf, Array.getElem?_eq_getElem hv] using hnone
    show h.spilled + _ = (h.homes.setIfInBounds v home).toList.countP Home.isSpill
    rw [Array.toList_setIfInBounds, List.countP_set (by simpa using hv), hentry, ht.counted]
    rfl

theorem reserve_aligned {size : Nat} (hsize : size ∣ 8) (h : Homes) :
    (size : Int) ∣ (h.reserve size).1 := by
  obtain ⟨off, -, hoff, hreserve⟩ := reserve_spec hsize h
  have hsaved : size ∣ savedSize := hsize.trans ⟨5, rfl⟩
  rw [hreserve, Int.dvd_neg]
  exact_mod_cast (hsaved.add hoff).add dvd_rfl

theorem Tidy.settle {is : List Dynarec.Instr} {k : Nat} {p : Holders} {i : Dynarec.Instr}
    (H : Allots is k h p) (hplain : Plain is h.homes.size) (hi : is[k]? = some i)
    (hyes : i.hasResult = true) (ht : Tidy h) : Tidy (h.settle (h.release k p) i).1 := by
  have hdef : Defines is k i.res.toNat := ⟨i, hi, hyes, rfl⟩
  have hnone : h.homeOf i.res.toNat = .none := by
    by_contra hne
    obtain ⟨j, hj, hdef'⟩ := H.given hne
    exact absurd (hplain.once hdef' hdef) (by omega)
  have hput := @Tidy.put h ht _ (hplain.declared hdef) hnone
  by_cases hslot : ∃ t, i.op = .alloc t
  · obtain ⟨t, hop⟩ := hslot
    have hbytes := hplain.slotted hi hop
    rw [settle_of_slot hop]
    refine hput (.slot _ _) (fun hrange => ?_) _
    cases hrange
    exact ⟨hbytes, reserve_aligned hbytes h⟩
  · rw [settle_of_noSlot fun t ht => hslot ⟨t, ht⟩]
    cases take i.res.toNat pool (h.release k p) with
    | some rp => exact hput (.reg rp.1) (fun hrange => nomatch hrange) h.frame
    | none =>
      have hbytes := hplain.sized hi hyes
      refine hput (.spill _ _) (fun hrange => ?_) _
      cases hrange
      exact ⟨hbytes, reserve_aligned hbytes h⟩

section Graph

variable {g : Graph} (T : g.Typed) (hh : ofGraph g = .ok h)
include T hh

theorem ofGraph_tidy : Tidy h := by
  refine (ofGraph_allots T (fun lives => ⟨fun hrange => ?_, ?_⟩) Tidy.settle hh).choose_spec.2
  · simp only [homeOf, Array.getElem?_replicate] at hrange
    split_ifs at hrange <;> cases hrange
  · simp [List.countP_replicate, Home.isSpill]

omit T hh in
theorem frameSize_mod (h : Homes) : h.frameSize % 16 = 8 := by
  rw [frameSize]
  omega

omit T hh in
theorem frame_le_frameSize (h : Homes) : h.frame + 8 ≤ h.frameSize := by
  rw [frameSize]
  omega

omit T in
theorem frame_of_assemble {w : Workspace} {b b' : Machine.CodeBuffer} {code : Assembled}
    (hok : assemble w b g = (.ok code, b')) :
    code.frame = h.frameSize ∧ code.spilled = h.spilled := by
  obtain ⟨-, h', hprepare, -, rfl⟩ := assemble_eq_ok hok
  cases hh.symm.trans (prepare_eq_ok.mp hprepare).2.2
  exact ⟨rfl, rfl⟩

/-- Where the homes in the frame lie, as displacements from the frame pointer. -/
structure Packed (h : Homes) : Prop where
  /-- The code has the displacements, and the size of the frame, unchanged. -/
  encoded : ∀ {v disp size}, (h.get v).range? = some (disp, size) →
    (frameMem disp).disp.toInt = disp
  size : (displacement h.frameSize).toInt = h.frameSize
  disjoint : ∀ {v v' disp disp' size size'}, v ≠ v' → (h.get v).range? = some (disp, size) →
    (h.get v').range? = some (disp', size') → disp + size ≤ disp' ∨ disp' + size' ≤ disp
  aligned : ∀ {v disp size}, (h.get v).range? = some (disp, size) →
    ∀ rbp : Int, 16 ∣ rbp → (size : Int) ∣ rbp + disp
  /-- Above the homes are the saved registers, below them the stack goes on. -/
  inside : ∀ {v disp size}, (h.get v).range? = some (disp, size) →
    -(savedSize : Int) - h.frameSize ≤ disp ∧ disp + size ≤ -(savedSize : Int)

theorem packed (hsmall : savedSize + h.frameSize < 2 ^ 31) : Packed h := by
  have hsound := ofGraph_sound T hh
  have hle := frame_le_frameSize h
  refine ⟨toInt_frameMem T hh (by omega), ?_, hsound.disjoint, fun {v disp size} hv rbp hrbp => ?_,
    fun hv => ?_⟩
  · have hword : Int32.size = 2 ^ 32 := rfl
    rw [displacement, Int32.toInt_ofInt, hword]
    exact Int.bmod_eq_of_le (by omega) (by omega)
  · have hne : h.get v ≠ .none := by
      intro hnone
      rw [hnone] at hv
      cases hv
    rw [(get_eq rfl hne).2.symm] at hv
    obtain ⟨hbytes, hdisp⟩ := (ofGraph_tidy T hh).aligned hv
    have hsixteen : (size : Int) ∣ 16 := by exact_mod_cast hbytes.trans ⟨2, rfl⟩
    exact (hsixteen.trans hrbp).add hdisp
  · have hinside := hsound.inside hv
    omega

end Graph

/-- Homes in the frame are disjoint, aligned and inside the frame that the prologue reserves, and the
spilled variables are counted. -/
theorem ofGraph_packed {g : Graph} (hg : g.typecheck = .accepted) :
    ∃ h, ofGraph g = .ok h ∧ h.frameSize % 16 = 8 ∧
      (savedSize + h.frameSize < 2 ^ 31 → Packed h) ∧
      ∀ {w b code b'}, assemble w b g = (.ok code, b') → code.frame = h.frameSize ∧
        code.spilled = h.homes.toList.countP Home.isSpill ∧ (b.Inside → ∃ rest,
          b'.extract code.offset (code.offset + code.length) =
            (prologue code.frame ++ rest).flatMap Machine.Instr.encode) := by
  obtain ⟨-, -, ⟨T⟩⟩ := Graph.typecheck_eq_accepted.mp hg
  obtain ⟨h, hh⟩ := exists_ofGraph T
  refine ⟨h, hh, frameSize_mod h, packed T hh, fun {w b code b'} hok => ⟨?_, ?_, fun hb => ?_⟩⟩
  · exact (frame_of_assemble hh hok).1
  · rw [← (ofGraph_tidy T hh).counted]
    exact (frame_of_assemble hh hok).2
  · obtain ⟨h', rs, -, -, hframe, -, -, hbytes⟩ := assemble_written hb hok
    exact ⟨_, hframe ▸ hbytes⟩

/-- Slots of two sizes, and one variable of twelve that are live at once. -/
def mixed : Graph where
  blocks := #[⟨0, [⟨.alloc .i8, .i64, 0⟩, ⟨.alloc .i64, .i64, 1⟩] ++
    (List.range 12).map (fun k => ⟨.read 0, .i16, k + 2⟩) ++
    (List.range 12).map (fun k => ⟨.write 0 (.var .i16 (k + 2)), .void, 0⟩) ++
    [⟨.exit, .void, 0⟩]⟩]
  varCount := 14

theorem ofGraph_packed_mixed :
    ∃ h, ofGraph mixed = .ok h ∧ Packed h ∧ h.frameSize = 40 ∧ h.get 0 = .slot (-41) 1 ∧
      h.get 1 = .slot (-56) 8 ∧ h.get 13 = .spill (-58) 2 := by
  obtain ⟨h, hh, -, hpacked, -⟩ := ofGraph_packed (g := mixed) (by decide +kernel)
  have hhomes : (ofGraph mixed).toOption.map (fun h => (h.frameSize, h.get 0, h.get 1, h.get 13)) =
      some (40, .slot (-41) 1, .slot (-56) 8, .spill (-58) 2) := by
    decide +kernel
  rw [hh] at hhomes
  simp only [Except.toOption, Option.map_some, Option.some.injEq, Prod.mk.injEq] at hhomes
  exact ⟨h, hh, hpacked (by rw [hhomes.1]; decide), hhomes⟩

end Homes

end Dynarec.Native
