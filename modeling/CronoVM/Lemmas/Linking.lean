import CronoVM.Lemmas.Alu
import CronoVM.Lemmas.Relocation

/-!
# Linked code

`Linked` says what becomes of the code of a function when its branches are widened and given their displacements. In the image, straight
code runs at its new place and each branch goes to its block.
-/

namespace CronoVM

open Checked Ir

/-! ## Linked code -/

/-- `final` is the code of `cg` with the branches at `ins` widened, and each branch with the displacement of its block. -/
structure Linked (cg : CgFn) (ins : Nat → Bool) (final : List Word) : Prop where
  length : final.length = placeOf ins cg.code.length
  widened : ∀ p, ins p = true → ∃ fx ∈ cg.fixups, fx.instIndex = p ∧ fx.bits = 8
  plain : ∀ p < cg.code.length, (∀ fx ∈ cg.fixups, fx.instIndex ≠ p) → final[placeOf ins p]? = cg.code[p]?
  short : ∀ fx ∈ cg.fixups, fx.bits = 8 → ins fx.instIndex = false → ∀ op a b, cg.code[fx.instIndex]? = some (encBr op a b 0) →
    ∃ rel : Int, -128 ≤ rel ∧ rel ≤ 127 ∧ (placeOf ins (cg.offsetOf fx.target) : Int) = placeOf ins fx.instIndex + 1 + rel ∧
      final[placeOf ins fx.instIndex]? = some (encBr op a b (BitVec.ofInt 8 rel))
  wide : ∀ fx ∈ cg.fixups, ins fx.instIndex = true → ∀ op a b, op = .bne ∨ op = .beq → cg.code[fx.instIndex]? = some (encBr op a b 0) →
    final[placeOf ins fx.instIndex]? = some (encBr op.opposite a b 1) ∧
      ∃ rel : Int, -8388608 ≤ rel ∧ rel ≤ 8388607 ∧ (placeOf ins (cg.offsetOf fx.target) : Int) = placeOf ins fx.instIndex + 2 + rel ∧
        final[placeOf ins fx.instIndex + 1]? = some (encI24 .jmp (BitVec.ofInt 32 rel))
  jump : ∀ fx ∈ cg.fixups, fx.bits = 24 →
    ∃ rel : Int, -8388608 ≤ rel ∧ rel ≤ 8388607 ∧ (placeOf ins (cg.offsetOf fx.target) : Int) = placeOf ins fx.instIndex + 1 + rel ∧
      final[placeOf ins fx.instIndex]? = some (encI24 .jmp (BitVec.ofInt 32 rel))

/-- A branch of two operands is taken. -/
def CondHolds (op : Opcode) (x y : Word) : Prop := if op = .bne then x ≠ y else x = y

instance (op : Opcode) (x y : Word) : Decidable (CondHolds op x y) := inferInstanceAs (Decidable (if op = .bne then x ≠ y else x = y))

/-- A branch with the word `w` is taken. -/
def BranchTaken {κ W : Type} (f : Frame κ W) (w : Word) : Prop :=
  if instOp w = Opcode.bne.code then f.regs (instA w) ≠ f.regs (instB w)
  else if instOp w = Opcode.beq.code then f.regs (instA w) = f.regs (instB w)
  else True

instance {κ W : Type} (f : Frame κ W) (w : Word) : Decidable (BranchTaken f w) :=
  inferInstanceAs (Decidable (if instOp w = Opcode.bne.code then f.regs (instA w) ≠ f.regs (instB w)
    else if instOp w = Opcode.beq.code then f.regs (instA w) = f.regs (instB w) else True))

/-- Where the function goes on after branch `fx`. -/
def branchNext {κ W : Type} (cg : CgFn) (f : Frame κ W) (fx : Fixup) : Nat :=
  if BranchTaken f (cg.code.getD fx.instIndex 0) then cg.offsetOf fx.target else fx.instIndex + 1

theorem branchNext_of {κ W : Type} {cg : CgFn} {f : Frame κ W} {fx : Fixup} {w : Word} (hw : cg.code[fx.instIndex]? = some w) :
    branchNext cg f fx = if BranchTaken f w then cg.offsetOf fx.target else fx.instIndex + 1 := by
  rw [branchNext, List.getD_eq_getElem?_getD, hw, Option.getD_some]

section branches

theorem toNat_pc {κ : Type} {img : Image κ} {pc : Nat} {w : Word} (hcode : img.code.length = img.codeCount.toNat)
    (hat : img.code[pc]? = some w) : (BitVec.ofNat 32 pc).toNat = pc := by
  obtain ⟨hlt, _⟩ := List.getElem?_eq_some_iff.mp hat
  have hcount := img.codeCount.isLt
  rw [BitVec.toNat_ofNat, Nat.mod_eq_of_lt (by omega)]

variable {κ W : Type} {img : Image κ} (host : Host κ W) {f : Frame κ W} {op : Opcode} {a b : Byte} {rel : Int} {pc target : Nat}

theorem condHolds_opposite {x y : Word} (hop : op = .bne ∨ op = .beq) : CondHolds op.opposite x y ↔ ¬CondHolds op x y := by
  rcases hop with rfl | rfl
  · exact not_not.symm
  · exact Iff.rfl

theorem branchTaken_encBr (hop : op = .bne ∨ op = .beq) : BranchTaken f (encBr op a b 0) ↔ CondHolds op (f.regs a) (f.regs b) := by
  rw [encBr_eq_encR, BranchTaken]
  simp only [instOp_encR, instA_encR, instB_encR]
  rcases hop with rfl | rfl
  · rw [if_pos rfl]
    exact Iff.rfl
  · rw [if_neg (by decide), if_pos rfl]
    exact Iff.rfl

theorem branchTaken_jmp : BranchTaken f (encI24 .jmp 0) := by
  rw [BranchTaken, instOp_encI24, if_neg (by decide), if_neg (by decide)]
  trivial

theorem branch_not_reader (hop : op = .bne ∨ op = .beq) : op ∉ readers := by
  rcases hop with rfl | rfl <;> decide

/-- A conditional branch. -/
theorem via_branch {n m : Nat} (hcode : img.code.length = img.codeCount.toNat) (hop : op = .bne ∨ op = .beq)
    (hat : img.code[pc]? = some (encBr op a b (BitVec.ofInt 8 rel))) (hlo : -128 ≤ rel) (hhi : rel ≤ 127)
    (htarget : (target : Int) = pc + 1 + rel) : Exec.ReachesVia (ReadsWithin img n m) (Threaded.step img host)
      { f with pc := BitVec.ofNat 32 pc }
      { f with pc := BitVec.ofNat 32 (if CondHolds op (f.regs a) (f.regs b) then target else pc + 1) } := by
  have hread : ReadsWithin img n m { f with pc := BitVec.ofNat 32 pc } :=
    readsWithin_of (by rwa [toNat_pc hcode hat]) (by rw [encBr_eq_encR, instOp_encR]) (branch_not_reader hop)
  refine .step .refl hread ?_
  rcases hop with rfl | rfl
  · exact step_bne hcode hat hlo hhi htarget
  · exact step_beq hcode hat hlo hhi htarget

/-- A jump. -/
theorem via_jmp {n m : Nat} (hcode : img.code.length = img.codeCount.toNat) (hat : img.code[pc]? = some (encI24 .jmp (BitVec.ofInt 32 rel)))
    (hlo : -8388608 ≤ rel) (hhi : rel ≤ 8388607) (htarget : (target : Int) = pc + 1 + rel) :
    Exec.ReachesVia (ReadsWithin img n m) (Threaded.step img host) { f with pc := BitVec.ofNat 32 pc }
      { f with pc := BitVec.ofNat 32 target } := by
  have hread : ReadsWithin img n m { f with pc := BitVec.ofNat 32 pc } :=
    readsWithin_of (by rwa [toNat_pc hcode hat]) (instOp_encI24 .jmp _) (by decide)
  exact .step .refl hread (step_jmp hcode hat hlo hhi htarget)

end branches

namespace Linked

variable {κ W : Type} {cg : CgFn} {ins : Nat → Bool} {final : List Word} {img : Image κ} (host : Host κ W) {f : Frame κ W} {n m : Nat}

/-- The words of the linked code stand in the image. -/
theorem image_at (hat : HasAt img.code 0 final) {k : Nat} {w : Word} (hk : final[k]? = some w) : img.code[k]? = some w := by
  obtain ⟨hlt, _⟩ := List.getElem?_eq_some_iff.mp hk
  have hget := hat.getElem? hlt
  rw [Nat.zero_add] at hget
  exact hget.trans hk

variable (hl : Linked cg ins final) (hcode : img.code.length = img.codeCount.toNat) (hat : HasAt img.code 0 final)
include hl hcode hat

/-- A conditional branch in its short form. -/
theorem via_short {fx : Fixup} (hfx : fx ∈ cg.fixups) (hbits : fx.bits = 8) (hins : ins fx.instIndex = false) {op : Opcode} {a b : Byte}
    (hop : op = .bne ∨ op = .beq) (hw : cg.code[fx.instIndex]? = some (encBr op a b 0)) :
    Exec.ReachesVia (ReadsWithin img n m) (Threaded.step img host) { f with pc := BitVec.ofNat 32 (placeOf ins fx.instIndex) }
      { f with pc := BitVec.ofNat 32 (placeOf ins (branchNext cg f fx)) } := by
  obtain ⟨rel, hlo, hhi, htarget, hbr⟩ := hl.short fx hfx hbits hins op a b hw
  have hvia := via_branch (f := f) host (n := n) (m := m) hcode hop (image_at hat hbr) hlo hhi htarget
  rw [branchNext_of hw]
  by_cases hcond : CondHolds op (f.regs a) (f.regs b)
  · rw [if_pos ((branchTaken_encBr hop).mpr hcond)]
    rwa [if_pos hcond] at hvia
  · rw [if_neg fun h => hcond ((branchTaken_encBr hop).mp h), placeOf_succ, hins, if_neg (by decide)]
    rwa [if_neg hcond] at hvia

/-- A conditional branch in its wide form: the opposite branch skips the jump. -/
theorem via_wide {fx : Fixup} (hfx : fx ∈ cg.fixups) (hins : ins fx.instIndex = true) {op : Opcode} {a b : Byte}
    (hop : op = .bne ∨ op = .beq) (hw : cg.code[fx.instIndex]? = some (encBr op a b 0)) :
    Exec.ReachesVia (ReadsWithin img n m) (Threaded.step img host) { f with pc := BitVec.ofNat 32 (placeOf ins fx.instIndex) }
      { f with pc := BitVec.ofNat 32 (placeOf ins (branchNext cg f fx)) } := by
  obtain ⟨hbr, rel, hlo, hhi, htarget, hjmp⟩ := hl.wide fx hfx hins op a b hop hw
  have hop' : op.opposite = .bne ∨ op.opposite = .beq := by
    rcases hop with rfl | rfl
    · exact Or.inr rfl
    · exact Or.inl rfl
  have hone : (1 : Byte) = BitVec.ofInt 8 1 := rfl
  rw [hone] at hbr
  have hskip : ((placeOf ins fx.instIndex + 2 : Nat) : Int) = placeOf ins fx.instIndex + 1 + 1 := by omega
  have hvia := via_branch (f := f) host (n := n) (m := m) hcode hop' (image_at hat hbr) (by decide) (by decide) hskip
  rw [branchNext_of hw]
  by_cases hcond : CondHolds op (f.regs a) (f.regs b)
  · rw [if_pos ((branchTaken_encBr hop).mpr hcond)]
    rw [if_neg fun h => (condHolds_opposite hop).mp h hcond] at hvia
    exact hvia.trans (via_jmp host hcode (image_at hat hjmp) hlo hhi (by omega))
  · rw [if_neg fun h => hcond ((branchTaken_encBr hop).mp h), placeOf_succ, if_pos hins]
    rwa [if_pos ((condHolds_opposite hop).mpr hcond)] at hvia

/-- A branch of the function is the same branch of the linked code. -/
theorem via_fixup (hok : cg.BranchesWf) {fx : Fixup} (hfx : fx ∈ cg.fixups) :
    Exec.ReachesVia (ReadsWithin img n m) (Threaded.step img host) { f with pc := BitVec.ofNat 32 (placeOf ins fx.instIndex) }
      { f with pc := BitVec.ofNat 32 (placeOf ins (branchNext cg f fx)) } := by
  obtain ⟨w, hw, hword⟩ := hok.word fx hfx
  cases hword with
  | jump hbits hshift =>
    obtain ⟨rel, hlo, hhi, htarget, hjmp⟩ := hl.jump fx hfx hbits
    rw [branchNext_of hw, if_pos branchTaken_jmp]
    exact via_jmp host hcode (image_at hat hjmp) hlo hhi htarget
  | cond op a b hop hbits hshift =>
    cases hins : ins fx.instIndex with
    | true => exact hl.via_wide host hcode hat hfx hins hop hw
    | false => exact hl.via_short host hcode hat hfx hbits hins hop hw

end Linked

/-! ## Linking -/

/-- The branches that `cg_relax_branches` widens, by their indices. -/
def relaxedOf (cg : CgFn) : Nat → Bool := (relaxPasses cg (cg.fixups.length + 1) Relax.start).relaxed

theorem relaxPasses_start {cg : CgFn} (hok : cg.BranchesWf) : ∃ j ≤ cg.fixups.length,
    relaxPasses cg (cg.fixups.length + 1) Relax.start = (relaxPass cg)^[j + 1] Relax.start ∧
      (relaxPass cg ((relaxPass cg)^[j] Relax.start)).changed = false ∧
      RelaxInv cg (relaxPasses cg (cg.fixups.length + 1) Relax.start) ∧
      ∀ i < cg.fixups.length, (cg.fixup i).bits = 8 → relaxedOf cg i = false → ¬TooFar cg (relaxedOf cg) i := by
  have hposlt : ∀ i < cg.fixups.length, (cg.fixup i).instIndex < cg.code.length := fun i hi => hok.pos_lt _ (fixup_mem hi)
  have hofflt : ∀ i < cg.fixups.length, cg.offsetOf (cg.fixup i).target ≤ cg.code.length :=
    fun i hi => offsetOf_le hok (hok.target_mem _ (fixup_mem hi))
  obtain ⟨j, hj, hrest⟩ := relaxPasses_fixpoint hok.code_lt hposlt hofflt
    (show cg.fixups.length < cg.fixups.length + 1 + relaxedCount cg Relax.start.relaxed by omega) relaxInv_start
  exact ⟨j, Nat.le_of_lt_succ hj, hrest⟩

/-- The code with the displacements written. -/
def linkedCode (cg : CgFn) (relaxed : Nat → Bool) : List Word :=
  (rewriteRelaxed cg relaxed).fixups.foldl (fun code fx => code.modify fx.instIndex (patchOf (rewriteRelaxed cg relaxed) fx))
    (rewriteRelaxed cg relaxed).code

section linking

variable {cg : CgFn} {relaxed : Nat → Bool} (hok : cg.BranchesWf)
include hok

/-- `cg_relax_branches` widens the branches its passes relax. -/
theorem cgRelaxBranches_eq :
    cgRelaxBranches cg = .ok (rewriteRelaxed cg (relaxedOf cg)) := by
  unfold cgRelaxBranches
  have hfound : ¬∃ fx ∈ cg.fixups, fx.bits = 8 ∧ cg.cgFindBlock fx.target = none := by
    rintro ⟨fx, hfx, _, hnone⟩
    have hsome : (cg.cgFindBlock fx.target).isSome := List.isSome_idxOf?.mpr (hok.target_mem fx hfx)
    rw [hnone] at hsome
    exact Bool.noConfusion hsome
  by_cases hnil : cg.fixups = []
  · rw [if_pos hnil, rewriteRelaxed_none hok]
    intro i hi
    rw [hnil] at hi
    exact absurd hi (Nat.not_lt_zero i)
  · rw [if_neg hnil, if_neg hfound]
    show (if (List.range cg.fixups.length).countP (relaxedOf cg) = 0 then Except.ok cg else .ok (rewriteRelaxed cg (relaxedOf cg))) = _
    by_cases hzero : (List.range cg.fixups.length).countP (relaxedOf cg) = 0
    · rw [if_pos hzero, rewriteRelaxed_none hok]
      intro i hi
      have hnot := List.countP_eq_zero.mp hzero i (List.mem_range.mpr hi)
      simpa using hnot
    · rw [if_neg hzero]

omit hok in
/-- Where in the list a fixup is. -/
theorem exists_fixup {fx : Fixup} (hfx : fx ∈ cg.fixups) : ∃ i < cg.fixups.length, cg.fixup i = fx := by
  rw [← map_fixup] at hfx
  obtain ⟨i, hi, rfl⟩ := List.mem_map.mp hfx
  exact ⟨i, List.mem_range.mp hi, rfl⟩

variable (relaxed) in
/-- A fixup's word gets its displacement. -/
theorem linkedCode_patched {fx : Fixup} (hfx : fx ∈ cg.fixups) :
    (linkedCode cg relaxed)[(placeFixup (widened cg relaxed) fx).instIndex]? =
      (rewriteRelaxed cg relaxed).code[(placeFixup (widened cg relaxed) fx).instIndex]?.map
        (patchOf (rewriteRelaxed cg relaxed) (placeFixup (widened cg relaxed) fx)) := by
  have hnodup : ((rewriteRelaxed cg relaxed).fixups.map Fixup.instIndex).Nodup := by
    rw [rewriteRelaxed_fixups hok]
    exact nodup_placeFixup hok.distinct
  have hmem : placeFixup (widened cg relaxed) fx ∈ (rewriteRelaxed cg relaxed).fixups := by
    rw [rewriteRelaxed_fixups hok]
    exact List.mem_map_of_mem hfx
  exact (getElem?_foldl_modify Fixup.instIndex _ _ hnodup _ _).1 _ hmem rfl

/-- Other words stay. -/
theorem linkedCode_other {k : Nat} (hnone : ∀ fx ∈ cg.fixups, (placeFixup (widened cg relaxed) fx).instIndex ≠ k) :
    (linkedCode cg relaxed)[k]? = (rewriteRelaxed cg relaxed).code[k]? := by
  have hnodup : ((rewriteRelaxed cg relaxed).fixups.map Fixup.instIndex).Nodup := by
    rw [rewriteRelaxed_fixups hok]
    exact nodup_placeFixup hok.distinct
  refine (getElem?_foldl_modify Fixup.instIndex _ _ hnodup _ _).2 fun gx hgx => ?_
  rw [rewriteRelaxed_fixups hok] at hgx
  obtain ⟨fx, hfx, rfl⟩ := List.mem_map.mp hgx
  exact hnone fx hfx

theorem length_linkedCode : (linkedCode cg relaxed).length = placeOf (widened cg relaxed) cg.code.length := by
  have hfold : ∀ (l : List Fixup) (code : List Word),
      (l.foldl (fun code fx => code.modify fx.instIndex (patchOf (rewriteRelaxed cg relaxed) fx)) code).length = code.length := by
    intro l
    induction l with
    | nil => exact fun _ => rfl
    | cons fx l ih =>
      intro code
      rw [List.foldl_cons, ih, List.length_modify]
  rw [linkedCode, hfold, length_rewriteRelaxed hok]

variable (hshort : ∀ i, relaxed i = true → i < cg.fixups.length ∧ (cg.fixup i).bits = 8)
  (hfits : ∀ fx ∈ cg.fixups, Fits (rewriteRelaxed cg relaxed) (placeFixup (widened cg relaxed) fx))

include hshort in
/-- A widened branch is a conditional one. -/
theorem bits_of_widened {fx : Fixup} (hfx : fx ∈ cg.fixups) (hw : widened cg relaxed fx.instIndex = true) : fx.bits = 8 := by
  obtain ⟨i, hi, rfl⟩ := exists_fixup hfx
  rw [widened_fixup hok hi] at hw
  exact (hshort i hw).2

include hfits

/-- A branch left short has its displacement. -/
theorem rel_of_short {fx : Fixup} (hfx : fx ∈ cg.fixups) (hbits : fx.bits = 8) (hins : widened cg relaxed fx.instIndex = false) :
    -128 ≤ (placeOf (widened cg relaxed) (cg.offsetOf fx.target) : Int) - (placeOf (widened cg relaxed) fx.instIndex + 1) ∧
      (placeOf (widened cg relaxed) (cg.offsetOf fx.target) : Int) - (placeOf (widened cg relaxed) fx.instIndex + 1) ≤ 127 := by
  have hfx' : placeFixup (widened cg relaxed) fx = { fx with instIndex := placeOf (widened cg relaxed) fx.instIndex } := by
    rw [placeFixup, if_neg (by simp [hins])]
  have hfit := hfits fx hfx
  have hlo := hfit.lo
  have hhi := hfit.hi
  rw [placeFixup_target, rewriteRelaxed_offsetOf hok (hok.target_mem fx hfx), hfx'] at hlo hhi
  simp only [hbits] at hlo hhi
  omega

theorem linked_short {fx : Fixup} (hfx : fx ∈ cg.fixups) (hbits : fx.bits = 8) (hins : widened cg relaxed fx.instIndex = false)
    {op : Opcode} {a b : Byte} (hw : cg.code[fx.instIndex]? = some (encBr op a b 0)) :
    ∃ rel : Int, -128 ≤ rel ∧ rel ≤ 127 ∧
      (placeOf (widened cg relaxed) (cg.offsetOf fx.target) : Int) = placeOf (widened cg relaxed) fx.instIndex + 1 + rel ∧
      (linkedCode cg relaxed)[placeOf (widened cg relaxed) fx.instIndex]? = some (encBr op a b (BitVec.ofInt 8 rel)) := by
  have hshift : fx.shift = 24 := by
    obtain ⟨w, _, hword⟩ := hok.word fx hfx
    cases hword with
    | cond _ _ _ _ _ hshift => exact hshift
    | jump hbits' _ => omega
  have hfx' : placeFixup (widened cg relaxed) fx = { fx with instIndex := placeOf (widened cg relaxed) fx.instIndex } := by
    rw [placeFixup, if_neg (by simp [hins])]
  have hpatched := linkedCode_patched relaxed hok hfx
  have hrel := rel_of_short hok hfits hfx hbits hins
  rw [hfx'] at hpatched
  refine ⟨(placeOf (widened cg relaxed) (cg.offsetOf fx.target) : Int) - (placeOf (widened cg relaxed) fx.instIndex + 1), hrel.1, hrel.2,
    by omega, hpatched.trans ?_⟩
  show (rewriteRelaxed cg relaxed).code[placeOf (widened cg relaxed) fx.instIndex]?.map _ = _
  rw [(rewriteRelaxed_code hok (hok.pos_lt fx hfx)).1, if_neg (by simp [hins]), hw, Option.map_some, patchOf]
  simp only [hbits, hshift, rewriteRelaxed_offsetOf hok (hok.target_mem fx hfx), encBr_or_rel, Nat.cast_add, Nat.cast_one]

theorem linked_wide {fx : Fixup} (hfx : fx ∈ cg.fixups) (hins : widened cg relaxed fx.instIndex = true)
    {op : Opcode} {a b : Byte} (hop : op = .bne ∨ op = .beq) (hw : cg.code[fx.instIndex]? = some (encBr op a b 0)) :
    (linkedCode cg relaxed)[placeOf (widened cg relaxed) fx.instIndex]? = some (encBr op.opposite a b 1) ∧
      ∃ rel : Int, -8388608 ≤ rel ∧ rel ≤ 8388607 ∧
        (placeOf (widened cg relaxed) (cg.offsetOf fx.target) : Int) = placeOf (widened cg relaxed) fx.instIndex + 2 + rel ∧
        (linkedCode cg relaxed)[placeOf (widened cg relaxed) fx.instIndex + 1]? = some (encI24 .jmp (BitVec.ofInt 32 rel)) := by
  have hfx' : placeFixup (widened cg relaxed) fx =
      { fx with instIndex := placeOf (widened cg relaxed) fx.instIndex + 1, shift := 8, bits := 24 } := by
    rw [placeFixup, if_pos hins]
  obtain ⟨hflip, hinserted⟩ := rewriteRelaxed_code hok (hok.pos_lt fx hfx)
  have hrel : -8388608 ≤ (placeOf (widened cg relaxed) (cg.offsetOf fx.target) : Int) - (placeOf (widened cg relaxed) fx.instIndex + 2) ∧
      (placeOf (widened cg relaxed) (cg.offsetOf fx.target) : Int) - (placeOf (widened cg relaxed) fx.instIndex + 2) ≤ 8388607 := by
    have hfit := hfits fx hfx
    have hlo := hfit.lo
    have hhi := hfit.hi
    rw [placeFixup_target, rewriteRelaxed_offsetOf hok (hok.target_mem fx hfx), hfx'] at hlo hhi
    simp only [Nat.add_one_sub_one] at hlo hhi
    omega
  constructor
  · -- The moved fixup is that of the jump.
    have hnone : ∀ gx ∈ cg.fixups, (placeFixup (widened cg relaxed) gx).instIndex ≠ placeOf (widened cg relaxed) fx.instIndex := by
      intro gx hgx
      by_cases hpos : gx.instIndex = fx.instIndex
      · rw [placeFixup, if_pos (by rwa [hpos]), hpos]
        exact Nat.succ_ne_self _
      · exact placeFixup_ne hpos
    rw [linkedCode_other hok hnone, hflip, if_pos hins, hw, Option.map_some, flipBranch_encBr hop]
  · have hpatched := linkedCode_patched relaxed hok hfx
    rw [hfx'] at hpatched
    refine ⟨(placeOf (widened cg relaxed) (cg.offsetOf fx.target) : Int) - (placeOf (widened cg relaxed) fx.instIndex + 2), hrel.1,
      hrel.2, by omega, hpatched.trans ?_⟩
    show (rewriteRelaxed cg relaxed).code[placeOf (widened cg relaxed) fx.instIndex + 1]?.map _ = _
    rw [hinserted hins, Option.map_some, patchOf]
    simp only [rewriteRelaxed_offsetOf hok (hok.target_mem fx hfx), encJmp_or_rel, Nat.cast_add, Nat.cast_one]
    congr 4

include hshort in
theorem linked_jump {fx : Fixup} (hfx : fx ∈ cg.fixups) (hbits : fx.bits = 24) :
    ∃ rel : Int, -8388608 ≤ rel ∧ rel ≤ 8388607 ∧
      (placeOf (widened cg relaxed) (cg.offsetOf fx.target) : Int) = placeOf (widened cg relaxed) fx.instIndex + 1 + rel ∧
      (linkedCode cg relaxed)[placeOf (widened cg relaxed) fx.instIndex]? = some (encI24 .jmp (BitVec.ofInt 32 rel)) := by
  have hins : ¬widened cg relaxed fx.instIndex = true := by
    intro hw
    have := bits_of_widened hok hshort hfx hw
    omega
  have hword : cg.code[fx.instIndex]? = some (encI24 .jmp 0) ∧ fx.shift = 8 := by
    obtain ⟨w, hw, hword⟩ := hok.word fx hfx
    cases hword with
    | cond _ _ _ _ hbits' _ => omega
    | jump _ hshift => exact ⟨hw, hshift⟩
  have hfx' : placeFixup (widened cg relaxed) fx = { fx with instIndex := placeOf (widened cg relaxed) fx.instIndex } := by
    rw [placeFixup, if_neg hins]
  have hrel : -8388608 ≤ (placeOf (widened cg relaxed) (cg.offsetOf fx.target) : Int) - (placeOf (widened cg relaxed) fx.instIndex + 1) ∧
      (placeOf (widened cg relaxed) (cg.offsetOf fx.target) : Int) - (placeOf (widened cg relaxed) fx.instIndex + 1) ≤ 8388607 := by
    have hfit := hfits fx hfx
    have hlo := hfit.lo
    have hhi := hfit.hi
    rw [placeFixup_target, rewriteRelaxed_offsetOf hok (hok.target_mem fx hfx), hfx'] at hlo hhi
    simp only [hbits] at hlo hhi
    omega
  have hpatched := linkedCode_patched relaxed hok hfx
  rw [hfx'] at hpatched
  refine ⟨(placeOf (widened cg relaxed) (cg.offsetOf fx.target) : Int) - (placeOf (widened cg relaxed) fx.instIndex + 1), hrel.1,
    hrel.2, by omega, hpatched.trans ?_⟩
  show (rewriteRelaxed cg relaxed).code[placeOf (widened cg relaxed) fx.instIndex]?.map _ = _
  rw [(rewriteRelaxed_code hok (hok.pos_lt fx hfx)).1, if_neg hins, hword.1, Option.map_some, patchOf]
  simp only [hbits, hword.2, rewriteRelaxed_offsetOf hok (hok.target_mem fx hfx), encJmp_or_rel, Nat.cast_add, Nat.cast_one]

include hshort

/-- The relaxed function is linked. -/
theorem linked_linkedCode : Linked cg (widened cg relaxed) (linkedCode cg relaxed) := by
  have hpos : ∀ p, widened cg relaxed p = true → ∃ fx ∈ cg.fixups, fx.instIndex = p ∧ fx.bits = 8 := by
    intro p hp
    obtain ⟨i, hi, hr, hpos⟩ := exists_of_widened hp
    exact ⟨cg.fixup i, fixup_mem hi, hpos, (hshort i hr).2⟩
  refine ⟨length_linkedCode hok, hpos, ?_, fun fx hfx hbits hins op a b hw => linked_short hok hfits hfx hbits hins hw,
    fun fx hfx hins op a b hop hw => linked_wide hok hfits hfx hins hop hw, fun fx hfx hbits => linked_jump hok hshort hfits hfx hbits⟩
  intro p hp hnone
  have hw : ¬widened cg relaxed p = true := by
    intro hw
    obtain ⟨fx, hfx, hfxp, _⟩ := hpos p hw
    exact hnone fx hfx hfxp
  rw [linkedCode_other hok fun fx hfx => placeFixup_ne (hnone fx hfx), (rewriteRelaxed_code hok hp).1, if_neg hw]

omit hshort in
/-- The fixups of the relaxed function are resolved. -/
theorem cgResolveFixups_relaxed : cgResolveFixups (rewriteRelaxed cg relaxed) =
    .ok { cg with
      code := linkedCode cg relaxed, fixups := cg.fixups.map (placeFixup (widened cg relaxed)),
      blockOffsets := cg.blockOffsets.map (placeOf (widened cg relaxed)) } := by
  have hall : ∀ gx ∈ (rewriteRelaxed cg relaxed).fixups, Fits (rewriteRelaxed cg relaxed) gx := by
    intro gx hgx
    rw [rewriteRelaxed_fixups hok] at hgx
    obtain ⟨fx, hfx, rfl⟩ := List.mem_map.mp hgx
    exact hfits fx hfx
  rw [cgResolveFixups_of_fits hall, ← rewriteRelaxed_fixups hok, ← rewriteRelaxed_offsets hok]
  rfl

end linking

/-! ## Finished functions -/

/-- A fixup that is resolved fits. -/
theorem fits_of_resolveFixup {cg : CgFn} {code code' : List Word} {fx : Fixup} (hbits : fx.bits = 8 ∨ fx.bits = 24)
    (h : resolveFixup cg code fx = .ok code') : Fits cg fx := by
  unfold resolveFixup at h
  cases hfind : cg.cgFindBlock fx.target with
  | none =>
    rw [hfind] at h
    nomatch h
  | some b =>
    simp only [hfind] at h
    split at h
    case isTrue => nomatch h
    case isFalse hrange =>
      have hoff : cg.offsetOf fx.target = cg.blockOffsets.getD b 0 := by rw [CgFn.offsetOf, hfind, Option.getD_some]
      rw [fixupRel, ← hoff] at hrange
      refine ⟨?_, hbits, by omega, by omega⟩
      have hsome : (cg.blocks.idxOf? fx.target).isSome := by
        have hidx : cg.blocks.idxOf? fx.target = some b := hfind
        rw [hidx]
        rfl
      exact List.isSome_idxOf?.mp hsome

/-- A loop that succeeds has succeeded at each turn. -/
theorem exists_of_foldlM {ε α β : Type} {step : β → α → Except ε β} {l : List α} {b b' : β} (h : l.foldlM step b = .ok b') :
    ∀ x ∈ l, ∃ c c', step c x = .ok c' := by
  induction l generalizing b with
  | nil => exact fun x hx => absurd hx List.not_mem_nil
  | cons y l ih =>
    rw [List.foldlM_cons] at h
    cases hy : step b y with
    | error e =>
      rw [hy] at h
      nomatch h
    | ok c =>
      rw [hy] at h
      intro x hx
      rcases List.mem_cons.mp hx with rfl | hx
      · exact ⟨b, c, hy⟩
      · exact ih h x hx

/-- The place of a position in the finished function. -/
def finalPlace (cg : CgFn) (x : Nat) : Nat := placeOf (widened cg (relaxedOf cg)) x

/-- What a finished function is: linked code, blocks at their new places, and the data with the entries of the tables. -/
theorem cgFinish_ok {cg cg₂ : CgFn} (hok : cg.BranchesWf) (h : cgFinish cg = .ok cg₂) :
    Linked cg (widened cg (relaxedOf cg)) cg₂.code ∧ (∀ bb ∈ cg.blocks, cg₂.offsetOf bb = finalPlace cg (cg.offsetOf bb)) ∧
      cg₂.blocks = cg.blocks ∧ cg.tableFixups.foldlM (resolveTableFixup cg₂) cg.dataBytes = .ok cg₂.dataBytes := by
  obtain ⟨_, _, _, _, hinv, _⟩ := relaxPasses_start hok
  unfold cgFinish at h
  rw [cgRelaxBranches_eq hok] at h
  cases hres : cgResolveFixups (rewriteRelaxed cg (relaxedOf cg)) with
  | error e =>
    simp only [hres, bind, Except.bind] at h
    nomatch h
  | ok cg₁ =>
    have hfits : ∀ fx ∈ cg.fixups, Fits (rewriteRelaxed cg (relaxedOf cg)) (placeFixup (widened cg (relaxedOf cg)) fx) := by
      intro fx hfx
      have hfold : ∃ code, (rewriteRelaxed cg (relaxedOf cg)).fixups.foldlM (resolveFixup (rewriteRelaxed cg (relaxedOf cg)))
          (rewriteRelaxed cg (relaxedOf cg)).code = .ok code := by
        unfold cgResolveFixups at hres
        cases hf : (rewriteRelaxed cg (relaxedOf cg)).fixups.foldlM (resolveFixup (rewriteRelaxed cg (relaxedOf cg)))
            (rewriteRelaxed cg (relaxedOf cg)).code with
        | error e =>
          simp only [hf, bind, Except.bind] at hres
          nomatch hres
        | ok code => exact ⟨code, rfl⟩
      obtain ⟨code, hfold⟩ := hfold
      have hmem : placeFixup (widened cg (relaxedOf cg)) fx ∈ (rewriteRelaxed cg (relaxedOf cg)).fixups := by
        rw [rewriteRelaxed_fixups hok]
        exact List.mem_map_of_mem hfx
      obtain ⟨c, c', hstep⟩ := exists_of_foldlM hfold _ hmem
      refine fits_of_resolveFixup ?_ hstep
      unfold placeFixup
      split
      · exact Or.inr rfl
      · obtain ⟨w, _, hword⟩ := hok.word fx hfx
        cases hword with
        | cond op a b hop hbits hshift => exact Or.inl hbits
        | jump hbits hshift => exact Or.inr hbits
    rw [cgResolveFixups_relaxed hok hfits] at hres
    obtain rfl := Except.ok.inj hres
    simp only [cgResolveFixups_relaxed hok hfits, bind, Except.bind] at h
    unfold cgResolveTableFixups at h
    dsimp only at h
    cases hdata : cg.tableFixups.foldlM (resolveTableFixup { cg with
        code := linkedCode cg (relaxedOf cg), fixups := cg.fixups.map (placeFixup (widened cg (relaxedOf cg))),
        blockOffsets := cg.blockOffsets.map (placeOf (widened cg (relaxedOf cg))) }) cg.dataBytes with
    | error e =>
      rw [hdata] at h
      nomatch h
    | ok data =>
      rw [hdata] at h
      obtain rfl := Except.ok.inj h
      refine ⟨linked_linkedCode hok hinv.short hfits, ?_, rfl, hdata⟩
      intro bb hbb
      have hoff : (rewriteRelaxed cg (relaxedOf cg)).offsetOf bb = _ := rewriteRelaxed_offsetOf hok hbb
      rw [CgFn.offsetOf, rewriteRelaxed_offsets hok] at hoff
      exact hoff

end CronoVM
