import CronoVM.Lemmas.Linking

/-!
# Branch relaxation preserves the program

The loop over the branches ends with a pass that changes nothing, so all displacements fit; running the linked code takes the same branches
to the same blocks.
-/

namespace CronoVM

open Checked Ir

/-! ## Displacements fit -/

section fits

variable {cg : CgFn} {relaxed : Nat → Bool} (hok : cg.BranchesOk)
include hok

variable (relaxed) in
/-- The places of a function are within reach of a jump. -/
theorem place_lt {x : Nat} (hx : x ≤ cg.code.length) : placeOf (widened cg relaxed) x < 2 ^ 23 - 1 := by
  have hle : placeOf (widened cg relaxed) x ≤ 2 * x := placeOf_le_double x
  have hlt := hok.code_small
  omega

variable (hnear : ∀ i < cg.fixups.length, (cg.fixup i).bits = 8 → relaxed i = false → ¬TooFar cg relaxed i)
include hnear

/-- A branch left short reaches its block. -/
theorem near_of_short {fx : Fixup} (hfx : fx ∈ cg.fixups) (hbits : fx.bits = 8) (hw : widened cg relaxed fx.instIndex = false) :
    -128 ≤ (placeOf (widened cg relaxed) (cg.offsetOf fx.target) : Int) - (placeOf (widened cg relaxed) fx.instIndex + 1) ∧
      (placeOf (widened cg relaxed) (cg.offsetOf fx.target) : Int) - (placeOf (widened cg relaxed) fx.instIndex + 1) ≤ 127 := by
  obtain ⟨i, hi, rfl⟩ := exists_fixup hfx
  have hfar := hnear i hi hbits (by rwa [widened_fixup hok.toBranchesWf hi] at hw)
  have hnext : placeOf (widened cg relaxed) ((cg.fixup i).instIndex + 1) = placeOf (widened cg relaxed) (cg.fixup i).instIndex + 1 := by
    rw [placeOf_succ, hw, if_neg (by decide)]
  simp only [TooFar, newPos_eq hok.toBranchesWf, hnext, not_or, not_lt, Nat.cast_add, Nat.cast_one] at hfar
  omega

/-- All fixups of the relaxed function fit. -/
theorem fits_relaxed {fx : Fixup} (hfx : fx ∈ cg.fixups) : Fits (rewriteRelaxed cg relaxed) (placeFixup (widened cg relaxed) fx) := by
  have htarget := hok.target_mem fx hfx
  have hplace := place_lt relaxed hok (Nat.le_of_lt (hok.pos_lt fx hfx))
  have hblock := place_lt relaxed hok (offsetOf_le hok.toBranchesWf htarget)
  have hbits : fx.bits = 8 ∨ fx.bits = 24 := by
    obtain ⟨w, _, hword⟩ := hok.word fx hfx
    cases hword with
    | cond op a b hop hbits hshift => exact Or.inl hbits
    | jump hbits hshift => exact Or.inr hbits
  have hoff : (rewriteRelaxed cg relaxed).offsetOf (placeFixup (widened cg relaxed) fx).target =
      placeOf (widened cg relaxed) (cg.offsetOf fx.target) := by
    rw [placeFixup_target, rewriteRelaxed_offsetOf hok.toBranchesWf htarget]
  cases hw : widened cg relaxed fx.instIndex with
  | true =>
    have hfx' : placeFixup (widened cg relaxed) fx =
        { fx with instIndex := placeOf (widened cg relaxed) fx.instIndex + 1, shift := 8, bits := 24 } := by
      rw [placeFixup, if_pos hw]
    refine ⟨by rwa [placeFixup_target], Or.inr (by rw [hfx']), ?_, ?_⟩
    all_goals
      rw [hoff, hfx']
      simp only [Nat.add_one_sub_one]
      omega
  | false =>
    have hfx' : placeFixup (widened cg relaxed) fx = { fx with instIndex := placeOf (widened cg relaxed) fx.instIndex } := by
      rw [placeFixup, if_neg (by simp [hw])]
    refine ⟨by rwa [placeFixup_target], by rwa [hfx'], ?_, ?_⟩
    all_goals
      rw [hoff, hfx']
      rcases hbits with hbits | hbits
      · have := near_of_short hok hnear hfx hbits hw
        simp only [hbits]
        omega
      · simp only [hbits]
        omega

end fits

/-! ## Relaxation -/

/-- Branch relaxation and the resolution of the fixups succeed; the passes end with one that changes nothing, before their bound. Each
position is moved by the words inserted before it, of which there is one for each widened branch; every other instruction is kept, every
branch goes where it went, and a skip of an instruction over others that are no conditional branches stays right. -/
theorem relaxation_preserves {cg : CgFn} (hok : cg.BranchesOk) : ∃ (ins : Nat → Bool) (final : List Word),
    (cgRelaxBranches cg).bind cgResolveFixups = .ok { cg with
      code := final, fixups := cg.fixups.map (placeFixup ins), blockOffsets := cg.blockOffsets.map (placeOf ins) } ∧
    (∃ j ≤ cg.fixups.length, relaxPasses cg (cg.fixups.length + 1) Relax.start = (relaxPass cg)^[j + 1] Relax.start ∧
      (relaxPass cg ((relaxPass cg)^[j] Relax.start)).changed = false) ∧
    Linked cg ins final ∧
    (∀ x y, x ≤ y → (∀ fx ∈ cg.fixups, fx.bits = 8 → ¬(x ≤ fx.instIndex ∧ fx.instIndex < y)) →
      placeOf ins y = placeOf ins x + (y - x)) ∧
    ∀ {κ W : Type} (img : Image κ) (host : Host κ W) (f : Frame κ W), img.code.length = img.codeCount.toNat → HasAt img.code 0 final →
      ∀ fx ∈ cg.fixups, Exec.Reaches (Threaded.step img host) { f with pc := BitVec.ofNat 32 (placeOf ins fx.instIndex) }
        { f with pc := BitVec.ofNat 32 (placeOf ins (branchNext cg f fx)) } := by
  obtain ⟨j, hj, hiter, hlast, hinv, hnear⟩ := relaxPasses_start hok.toBranchesWf
  have hfits : ∀ fx ∈ cg.fixups, Fits (rewriteRelaxed cg (relaxedOf cg)) (placeFixup (widened cg (relaxedOf cg)) fx) :=
    fun fx hfx => fits_relaxed hok hnear hfx
  have hlinked := linked_linkedCode hok.toBranchesWf hinv.short hfits
  refine ⟨_, _, ?_, ⟨j, hj, hiter, hlast⟩, hlinked, ?_, ?_⟩
  · rw [cgRelaxBranches_eq hok.toBranchesWf]
    exact cgResolveFixups_relaxed hok.toBranchesWf hfits
  · intro x y hxy hnone
    refine placeOf_eq_add hxy fun p hp hlt => ?_
    rw [Bool.eq_false_iff]
    intro hw
    obtain ⟨fx, hfx, hfxp, hbits⟩ := hlinked.widened p hw
    exact hnone fx hfx hbits (hfxp ▸ ⟨hp, hlt⟩)
  · intro κ W img host f hcode hat fx hfx
    exact (hlinked.via_fixup host (f := f) (n := 0) (m := 0) hcode hat hok.toBranchesWf hfx).reaches

/-- A function that branches over 199 instructions. -/
def longBranch : CgFn :=
  { code := encBr .bne 3 4 0 :: List.replicate 199 (encI16 .movi 5 0), map := [], nextReg := 6, freeList := [], zeroReg := 253,
    allocaBytes := 0, spillBytes := 0, valSpillCount := 0, frameBytes := 0, ssaRegHigh := 6, globals := [], funcs := [], curBlock := 0,
    blocks := [1, 2], blockOffsets := [0, 200], fixups := [{ instIndex := 0, target := 2, shift := 24, bits := 8 }], tableFixups := [],
    dataBytes := [] }

theorem longBranch_length : longBranch.code.length = 200 := by
  unfold longBranch
  rw [List.length_cons, List.length_replicate]

/-- The branch and its target are in the code. -/
theorem longBranch_ok : longBranch.BranchesOk where
  code_lt := by
    rw [longBranch_length]
    decide
  code_small := by
    rw [longBranch_length]
    decide
  distinct := by decide
  pos_lt := by
    rw [longBranch_length]
    decide
  target_mem := by decide
  offsets_length := rfl
  offsets_le := by
    rw [longBranch_length]
    decide
  word fx hfx := by
    obtain rfl := List.mem_singleton.mp hfx
    exact ⟨_, rfl, .cond .bne 3 4 (Or.inl rfl) rfl rfl⟩

/-- Its branch is widened. -/
theorem relaxation_preserves_longBranch : ∃ (ins : Nat → Bool) (final : List Word), Linked longBranch ins final ∧ ins 0 = true := by
  obtain ⟨ins, final, _, _, hlinked, _⟩ := relaxation_preserves longBranch_ok
  refine ⟨ins, final, hlinked, ?_⟩
  by_contra hoff
  obtain ⟨rel, _, hhi, htarget, _⟩ := hlinked.short _ (List.mem_singleton.mpr rfl) rfl (Bool.eq_false_iff.mpr hoff) .bne 3 4 rfl
  have hfar : placeOf ins 0 + (200 - 0) ≤ placeOf ins 200 := placeOf_add_le (Nat.zero_le 200)
  have hoffset : longBranch.offsetOf 2 = 200 := rfl
  simp only [hoffset] at htarget
  omega

end CronoVM
