import CronoVM.Lemmas.Gep
import CronoVM.Theorems.FunnelShifts
import CronoVM.Theorems.Globals

/-!
# Folded and computed addresses

A constant GEP and the code of a GEP instruction with the same indices give the same address, the one LLVM's layout gives, modulo 2^32.
-/

namespace CronoVM

open Checked Ir
open Globals (TargetData GepPath)

variable {κ W : Type}

/-- What the indices add to the address: the first one counts elements of the source type, the others lead into it. -/
def llvmOffset (td : TargetData) (source : Globals.Ty) : Option (Int × GepPath source) → Option Int
  | none => some 0
  | some (first, path) => (path.offset td).map fun off => first * td.abiSize source + off

/-- What `cg_const_gep_offset` makes of them. -/
def foldedOffset (td : TargetData) (source : Globals.Ty) : Option (Int × GepPath source) → Option Int
  | none => some 0
  | some (first, path) => Globals.cgConstGepOffset td source (some first) path

/-- The indices of an instruction have these values. -/
def SameGep (word : Val → Word) {source : Globals.Ty} : Option (Int × GepPath source) → Option (Val × GepIndices source) → Prop
  | none, none => True
  | some (first, path), some (v, rest) => word v = BitVec.ofInt 32 first ∧ SameIndices word path rest
  | _, _ => False

/-- What the constant ones among them add. -/
def constOffset (td : TargetData) (source : Globals.Ty) : Option (Val × GepIndices source) → Int
  | none => 0
  | some (first, rest) => constPart (gepStride td source) first + rest.constPart td

/-- The indices that are put into registers. -/
def gepDynamics {source : Globals.Ty} : Option (Val × GepIndices source) → List Val
  | none => []
  | some (first, rest) => [first].filter Ir.Val.isDynamic ++ rest.dynamics

/-- An instruction is rejected for its base, for an index, or for constant indices that add more than an `int32_t`. -/
def Cg.RejectsGep (cg : Cg) (td : TargetData) {source : Globals.Ty} (base : Val) (indices : Option (Val × GepIndices source)) (e : CgError) : Prop :=
  cg.Rejects base e ∨ cg.RejectsOne (gepDynamics indices) e ∨ e = .gepTooWide ∧ ¬FitsInt32 (constOffset td source indices)

/-- The registers it takes: of the base, of the indices, and of the constant part with the base. -/
def Cg.gepRegs (cg : Cg) {source : Globals.Ty} (base : Val) (indices : Option (Val × GepIndices source)) : Nat :=
  cg.regsTaken base + cg.indexRegs (gepDynamics indices) + 2

namespace GepAux

section gep

variable {img : Image κ} (host : Host κ W) {cg : Cg} {f : Frame κ W} {td : TargetData} {source : Globals.Ty}

/-- What the translator folds for a constant is the offset of the data layout. -/
theorem foldedOffset_eq (td : TargetData) (source : Globals.Ty) (values : Option (Int × GepPath source)) :
    foldedOffset td source values = llvmOffset td source values := by
  cases values with
  | none => rfl
  | some ix => exact Globals.gepWalk_eq ix.2 _

variable (hcode : img.code.length = img.codeCount.toNat)
include hcode

/-- The folded offset added to the base. -/
theorem wp_constGep (hok : cg.Ok) (base : Const) (off : Int) : Exec.wp (cgRegForConst (.gep base (some off)))
    (GivesReg img host cg f (constWord cg (f.regs cg.zeroReg) base + BitVec.ofInt 32 off))
    (cg.Stops (cg.RejectsConst (.gep base (some off))) (Const.regsTaken (.gep base (some off)))) cg := by
  have hgives := wp_cgRegForConst (f := f) host hcode (.gep base (some off)) hok.pool hok.zero hok.next_le
  exact Exec.wp_mono (fun _ _ h => h.1) (fun _ _ he => he.2) (Exec.wp_and hgives (takes_cgRegForConst hok.pool _))

/-- The sum of all indices. -/
theorem wp_cgGepSum (hok : cg.Ok) (hin : InFrame cg img f) {values : Option (Int × GepPath source)} {indices : Option (Val × GepIndices source)}
    (hsame : SameGep (indexWord cg f) values indices) {off : Int} (hoff : llvmOffset td source values = some off) :
    Exec.wp (cgGepSum td source indices)
      (fun s cg' => ∃ f', Prepares img host cg f cg' f' ∧ SumAt cg' f' (BitVec.ofInt 32 off) s ∧ s.constOff = constOffset td source indices ∧
        cg'.nextReg ≤ cg.nextReg + cg.indexRegs (gepDynamics indices))
      (cg.Stops (cg.RejectsOne (gepDynamics indices)) (cg.indexRegs (gepDynamics indices))) cg := by
  cases values with
  | none =>
    cases indices with
    | some ix => exact hsame.elim
    | none =>
      rw [← Option.some.inj hoff]
      exact ⟨f, .refl hok.next_le, rfl, rfl, Nat.le_add_right _ _⟩
  | some vs =>
    cases indices with
    | none => exact hsame.elim
    | some ix =>
      obtain ⟨first, path⟩ := vs
      obtain ⟨v, rest⟩ := ix
      obtain ⟨hfirst, hrest⟩ := hsame
      obtain ⟨off', hoff', rfl⟩ := Option.map_eq_some_iff.mp hoff
      have hstart : SumAt cg f (0#32) ⟨0, none⟩ := rfl
      have hregs := cg.indexRegs_append ([v].filter Ir.Val.isDynamic) rest.dynamics
      rw [cgGepSum, Exec.wp_bind, gepDynamics]
      refine Exec.wp_mono ?_ (fun _ _ he => he.mono (·.append_left) (by omega))
        (wp_cgGepStep host hcode hok hin hstart (gepStride td source) v)
      rintro s₁ cg₁ ⟨f₁, hprep₁, hsum₁, hconst₁, hnext₁⟩
      have htables := Cg.SameTables.of_emitted hprep₁.emitted
      have hregs₁ := htables.indexRegs rest.dynamics
      refine Exec.wp_mono ?_ (fun _ _ he => he.before hnext₁ (fun hrej => (htables.rejectsOne hrej).append_right) (by omega))
        (wp_cgGepWalk host hcode td (hprep₁.ok hok) (hprep₁.inFrame hin) hsum₁ (indexWord_after host hprep₁ hok) hrest hoff')
      rintro s₂ cg₂ ⟨f₂, hprep₂, hsum₂, hconst₂, hnext₂⟩
      refine ⟨f₂, hprep₁.trans hcode hprep₂, ?_, ?_, by omega⟩
      · have htotal : 0#32 + indexWord cg f v * BitVec.ofNat 32 (gepStride td source) + BitVec.ofInt 32 off' =
            BitVec.ofInt 32 (first * td.abiSize source + off') := by
          rw [BitVec.zero_add, hfirst, gepStride, ofInt_mul_stride, BitVec.ofInt_add]
        rw [← htotal]
        exact hsum₂
      · rw [hconst₂, hconst₁, constOffset]
        exact congrArg (· + _) (Int.zero_add _)

/-- The base with the constant part. -/
theorem wp_cgGepConst (hok : cg.Ok) {b : Byte} (hheld : Held b cg.nextReg) (constOff : Int) : Exec.wp (cgGepConst b constOff)
    (GivesReg img host cg f (f.regs b + BitVec.ofInt 32 constOff))
    (cg.Stops (fun e => e = .gepTooWide ∧ ¬FitsInt32 constOff) 2) cg := by
  unfold cgGepConst
  by_cases hzero : constOff = 0
  · rw [if_pos hzero, hzero]
    refine (Prepares.refl hok.next_le).givesReg ?_ hheld
    exact (BitVec.add_zero _).symm
  · rw [if_neg hzero, Exec.wp_bind, Exec.wp_stopIf]
    refine ⟨fun hwide => Or.inl ⟨rfl, not_fitsInt32 hwide⟩, fun _ => ?_⟩
    refine wp_taken host (wp_cgConstReg (f := f) host hcode hok.pool _) (takes_cgConstReg hok.pool _)
      (fun e cg' he => he.mono False.elim (Nat.le_succ 1)) fun offR cg₁ f₁ hprep₁ hoff hheld₁ hnext₁ => ?_
    refine wp_aluThen (f := f₁) host hcode (rfl : aluOp .add = some _) (hprep₁.ok hok).pool (fun hfull => Or.inr ⟨rfl, hfull.before hnext₁⟩)
      fun sumR cg₂ f₂ hprep₂ hadd hheld₂ _ => ?_
    refine (hprep₁.trans hcode hprep₂).givesReg ?_ hheld₂
    rw [hadd, hoff, hprep₁.regs hheld]

/-- The code of an instruction. -/
theorem wp_cgGetElementPtr (hok : cg.Ok) (hin : InFrame cg img f) {values : Option (Int × GepPath source)}
    {indices : Option (Val × GepIndices source)} (hsame : SameGep (indexWord cg f) values indices) {off : Int}
    (hoff : llvmOffset td source values = some off) (base : Val) (dst : Byte) : Exec.wp (cgGetElementPtr td source base indices dst)
      (fun _ => Defines img host cg f dst (operandWord cg f base + BitVec.ofInt 32 off))
      (cg.Stops (cg.RejectsGep td base indices) (cg.gepRegs base indices)) cg := by
  have hregs : cg.gepRegs base indices = cg.regsTaken base + cg.indexRegs (gepDynamics indices) + 2 := rfl
  unfold cgGetElementPtr
  refine wp_taken host (wp_cgRegFor host hcode hok hin base) (takes_cgRegFor hok.pool base) (fun e cg' he => he.mono Or.inl (by omega))
    fun baseR cg₁ f₁ hprep₁ hbase hheld₁ hnext₁ => ?_
  have hok₁ := hprep₁.ok hok
  have hwords : indexWord cg₁ f₁ = indexWord cg f := funext (indexWord_after host hprep₁ hok)
  have htables := Cg.SameTables.of_emitted hprep₁.emitted
  have hregs₁ := htables.indexRegs (gepDynamics indices)
  rw [Exec.wp_bind]
  refine Exec.wp_mono ?_ (fun _ _ he => he.before hnext₁ (fun hrej => Or.inr (Or.inl (htables.rejectsOne hrej))) (by omega))
    (wp_cgGepSum host hcode hok₁ (hprep₁.inFrame hin) (by rw [hwords]; exact hsame) hoff)
  rintro s cg₂ ⟨f₂, hprep₂, hsum, hconst, hnext₂⟩
  have hok₂ := hprep₂.ok hok₁
  have hnext : cg₂.nextReg ≤ cg.nextReg + (cg.regsTaken base + cg.indexRegs (gepDynamics indices)) := by omega
  refine wp_operand (Exec.wp_mono (fun _ _ h => h) (fun _ _ he => he.before hnext (fun hwide => Or.inr (Or.inr (hconst ▸ hwide))) (by omega))
    (wp_cgGepConst (f := f₂) host hcode hok₂ (hprep₂.held hheld₁) s.constOff)) fun cur cg₃ f₃ hprep₃ hcur hheld₃ => ?_
  have hprep := (hprep₁.trans hcode hprep₂).trans hcode hprep₃
  have hcurWord : f₃.regs cur = operandWord cg f base + BitVec.ofInt 32 s.constOff := by
    rw [hcur, hprep₂.regs hheld₁, hbase]
  have hsum₃ := hsum.after host hprep₃
  unfold SumAt at hsum₃
  cases hdyn : s.dynReg with
  | some dynReg =>
    rw [hdyn] at hsum₃
    dsimp only
    rw [wp_cgEmit]
    have hrun := runs_alu (f := f₃) host hcode (rfl : aluOp .add = some _) dst cur dynReg
    have hword : f₃.regs cur + f₃.regs dynReg = operandWord cg f base + BitVec.ofInt 32 off := by
      rw [hcurWord, ← hsum₃.2, BitVec.add_assoc]
    rw [hword] at hrun
    exact (Defines.of_runs hprep₃.next_le hrun).after hcode hprep
  | none =>
    rw [hdyn] at hsum₃
    have hword : f₃.regs cur = operandWord cg f base + BitVec.ofInt 32 off := by
      rw [hcurWord, hsum₃]
    dsimp only
    rw [Exec.wp_when, wp_cgEmit]
    refine ⟨fun _ => ?_, fun hsame => ?_⟩
    · have hrun := runs_alu (f := f₃) host hcode (rfl : aluOp .mov = some _) dst cur 0
      rw [hword] at hrun
      exact (Defines.of_runs hprep₃.next_le hrun).after hcode hprep
    · have heq : cur = dst := not_not.mp hsame
      refine Defines.after hcode hprep ⟨f₃, .refl, ?_, Nat.le_refl _, hprep₃.next_le⟩
      rw [← hword, ← heq]
      refine ⟨rfl, rfl, rfl, fun r _ => ?_⟩
      by_cases hr : r = cur
      · rw [hr, Frame.setReg_same]
      · rw [Frame.setReg_of_ne _ _ hr]

end gep

end GepAux

open GepAux

/-- For every source type and all index values that lead into it, the constant GEP and the instruction with these indices in registers or
as constants add what LLVM's layout says to the base. The translator rejects them only for an operand it has no register for, where fewer
registers are left than they take, or for an offset that is no `int32_t`. -/
theorem gep_addresses_agree (td : TargetData) (source : Globals.Ty) (values : Option (Int × GepPath source)) (off : Int)
    (hoff : llvmOffset td source values = some off) (img : Image κ) (host : Host κ W) (hcode : img.code.length = img.codeCount.toNat) (cg : Cg)
    (f : Frame κ W) (hok : cg.Ok) (hin : InFrame cg img f) :
    (∀ base : Const, Exec.wp (cgRegForConst (.gep base (foldedOffset td source values)))
      (GivesReg img host cg f (constWord cg (f.regs cg.zeroReg) base + BitVec.ofInt 32 off))
      (cg.Stops (cg.RejectsConst (.gep base (some off))) (Const.regsTaken (.gep base (some off)))) cg) ∧
    ∀ (base : Val) (indices : Option (Val × GepIndices source)) (dst : Byte), SameGep (indexWord cg f) values indices →
      Exec.wp (cgGetElementPtr td source base indices dst)
        (fun _ => Defines img host cg f dst (operandWord cg f base + BitVec.ofInt 32 off))
        (cg.Stops (cg.RejectsGep td base indices) (cg.gepRegs base indices)) cg := by
  refine ⟨fun base => ?_, fun base indices dst hsame => wp_cgGetElementPtr host hcode hok hin hsame hoff base dst⟩
  rw [foldedOffset_eq, hoff]
  exact wp_constGep host hcode hok base off

/-! ## A field of an element -/

/-- `{ i8*, i32 }` in an array of them: the second field of the element before the first, and one more array of 4 on. -/
def entryIndices : Option (Int × GepPath (.array 4 Globals.entry)) := some (1, .elem (-1) (.field (Fin.last 1) .nil))

/-- The first index in a register, the second one constant. -/
def entryGep : Option (Val × GepIndices (.array 4 Globals.entry)) :=
  some (.loc (.arg 0), .elem (.const (.int 32 0xFFFFFFFF)) (.field (Fin.last 1) .nil))

/-- Its code. -/
def entryCode : List Word := [encI16 .movi 4 32, encR .mul 5 0 4, encI16 .movi 6 (-4), encR .add 7 1 6, encR .add 3 7 5]

theorem gep_addresses_agree_entry : ∃ cg',
    cgGetElementPtr Globals.target32 (.array 4 Globals.entry) (.loc (.arg 1)) entryGep 3 threeArgsCg = .val () cg' ∧ cg'.code = entryCode ∧
    Defines (codeImage []) quietHost threeArgsCg (threeArgsFrame 1 16 0) 3 44 cg' := by
  have hoff : llvmOffset Globals.target32 (.array 4 Globals.entry) entryIndices = some 28 := by decide
  have hsame : SameGep (indexWord threeArgsCg (threeArgsFrame 1 16 0)) entryIndices entryGep :=
    ⟨by decide, .elem (by decide) (.field .nil)⟩
  have hcopy := (gep_addresses_agree Globals.target32 (.array 4 Globals.entry) entryIndices 28 hoff (codeImage []) quietHost rfl threeArgsCg
    (threeArgsFrame 1 16 0) threeArgsCg_ok ⟨rfl, by decide⟩).2 (.loc (.arg 1)) entryGep 3 hsame
  have hrun : (cgGetElementPtr Globals.target32 (.array 4 Globals.entry) (.loc (.arg 1)) entryGep 3 threeArgsCg).holds
      (fun _ cg' => cg'.code == entryCode) = true := by decide +kernel
  obtain ⟨_, cg', hcg, hword⟩ := Outcome.exists_of_holds hrun
  have hdefines := Exec.of_wp hcopy hcg
  exact ⟨cg', hcg, beq_iff_eq.mp hword, hdefines⟩

end CronoVM
