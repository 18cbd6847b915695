import CronoVM.Lemmas.Blocks
import CronoVM.Lemmas.Narrow
import CronoVM.Lemmas.Structured
import CronoVM.Lemmas.WideWords
import CronoVM.Translator.Intrinsics

/-!
# Runs of the integer intrinsics

What the code of an intrinsic leaves in the register of its result, as a function of the words of its operands.
-/

namespace CronoVM

open Checked Ir NarrowInt

variable {κ W : Type}

/-! ## On words -/

/-- The comparison of the intrinsics. -/
def lessThan {w : Nat} (isSigned : Bool) (x y : BitVec w) : Bool := if isSigned = true then x.slt y else x.ult y

/-- The word `cgMinMax` leaves. -/
def minMaxWord (isMin isSigned : Bool) (w : Nat) (x y : Word) : Word :=
  if lessThan isSigned (extendLow isSigned w x) (extendLow isSigned w y) = true then (if isMin = true then x else y)
  else (if isMin = true then y else x)

/-- The word `cgSaturate` leaves. -/
def saturateWord (isSub : Bool) (w : Nat) (x y : Word) : Word :=
  if isSub = true then (if x < y then 0 else x - y)
  else if w < 32 then (if lowMask 32 w < x + y then lowMask 32 w else x + y)
  else (if x + y < x then -1 else x + y)

/-- The word `cgCompare3` leaves. -/
def compare3Word (isSigned : Bool) (w : Nat) (x y : Word) : Word :=
  boolWord (lessThan isSigned (extendLow isSigned w y) (extendLow isSigned w x)) -
    boolWord (lessThan isSigned (extendLow isSigned w x) (extendLow isSigned w y))

/-- The instruction for the comparison. -/
theorem aluOp_lessThan (isSigned : Bool) : ∃ g, aluOp (if isSigned = true then .cmpLt else .cmpLtu) = some g ∧
    ∀ x y, g x y = boolWord (lessThan isSigned x y) := by
  cases isSigned with
  | true => exact ⟨_, rfl, fun x y => rfl⟩
  | false => exact ⟨_, rfl, fun x y => by simp [boolWord, lessThan, BitVec.ult_iff_lt]⟩

/-! ## Code -/

section code

variable {img : Image κ} (host : Host κ W) (hcode : img.code.length = img.codeCount.toNat) {cg : Cg} {f : Frame κ W} {dst : Byte} {w : Nat}
include hcode

/-- A block after other code that changes scratch registers only. -/
theorem prepares_blockFrom {srcs : List Byte} {k : Nat} (hsrcs : ∀ r ∈ srcs, Held r cg.nextReg) (hnext : cg.nextReg + k ≤ cgMaxEmitReg + 1)
    {ws : List Word} {f₁ : Frame κ W} (hrun : RunsTo img host ws f f₁) (hag : f.AgreesOff (Scratch cg.nextReg) f₁) (block : List BlockInst)
    (hok : block.all (BlockInst.ok srcs.length k) = true) :
    ∃ f', Prepares img host cg f { cg.emit (ws ++ block.map (BlockInst.word (RegName.reg srcs cg.nextReg))) with nextReg := cg.nextReg + k } f' ∧
      Reads srcs cg.nextReg k f' (evalBlock block fun x => f₁.regs (x.reg srcs cg.nextReg)) := by
  obtain ⟨f', hrun', hag', hreads⟩ := runs_block (f := f₁) host hcode hsrcs hnext hok fun _ _ => rfl
  exact ⟨f', ⟨⟨_, _, rfl, hrun.append hcode hrun'⟩, hag.trans hag', Nat.le_add_right _ k, hnext⟩, hreads⟩

omit hcode in
/-- A shift left and one right by the amount in a register. -/
theorem sar_shl_amount (hpos : 0 < w) (hw : w ≤ 32) (x : Word) :
    (x <<< (BitVec.ofNat 32 (32 - w) &&& 31)).sshiftRight' (BitVec.ofNat 32 (32 - w) &&& 31) = extendLow true w x := by
  have hmask : (BitVec.ofNat 32 (32 - w) &&& 31 : Word).toNat = 32 - w := by
    have h31 : (31 : Word).toNat = 2 ^ 5 - 1 := rfl
    rw [BitVec.toNat_and, h31, Nat.and_two_pow_sub_one_eq_mod, BitVec.toNat_ofNat]
    omega
  rw [BitVec.shiftLeft_eq', BitVec.sshiftRight', hmask, sshiftRight_shiftLeft hpos hw]
  rfl

/-- Both operands, extended. -/
theorem wp_cgExtendBoth (hok : cg.Ok) (isSigned : Bool) (hpos : 0 < w) (hw : w ≤ 32) {a b : Byte} (ha : Held a cg.nextReg)
    (hb : Held b cg.nextReg) : Exec.wp (cgExtendBoth isSigned w a b) (fun c cg' => ∃ f', Prepares img host cg f cg' f' ∧
      f'.regs c.1 = extendLow isSigned w (f.regs a) ∧ f'.regs c.2 = extendLow isSigned w (f.regs b) ∧ Held c.1 cg'.nextReg ∧
        Held c.2 cg'.nextReg) (fun e _ => e.OfOperand) cg := by
  have hpool := hok.pool
  have hsrcs : ∀ r ∈ [a, b], Held r cg.nextReg := by
    intro r hr
    simp only [List.mem_cons, List.not_mem_nil, or_false] at hr
    rcases hr with rfl | rfl
    · exact ha
    · exact hb
  unfold cgExtendBoth
  split
  case isFalse hno =>
    obtain rfl : w = 32 := by omega
    rw [extendLow_self, extendLow_self]
    exact ⟨f, .refl hok.next_le, rfl, rfl, ha, hb⟩
  case isTrue hlt =>
    refine wp_alloc hpool fun _ => wp_alloc hpool fun _ => wp_alloc hpool fun (hroom : ¬cg.nextReg + 1 + 1 > cgMaxEmitReg) => ?_
    have hscratch : Scratch cg.nextReg (BitVec.ofNat 8 (cg.nextReg + 2)) := scratch_nextReg (Nat.le_add_right _ _) hroom
    have hkeep : ∀ {r : Byte} (k : Word), Held r cg.nextReg → (f.setReg (BitVec.ofNat 8 (cg.nextReg + 2)) k).regs r = f.regs r :=
      fun k hr => Frame.setReg_of_ne f k (hr.ne_scratch hroom)
    have hheld : ∀ j < 2, Held (BitVec.ofNat 8 (cg.nextReg + j)) (cg.nextReg + 3) := fun j hj => by
      refine Or.inl ?_
      rw [toNat_nextReg (by omega)]
      omega
    cases isSigned with
    | true =>
      simp only [Exec.wp_bind, if_true, wp_cgEmit, wp_cgEmitLoadConst32, Exec.wp_pure, Cg.emit_emit]
      obtain ⟨f', hprep, hreads⟩ := prepares_blockFrom host hcode hsrcs (k := 3) (by omega)
        (runs_loadConst32 (f := f) host hcode (BitVec.ofNat 8 (cg.nextReg + 2)) (BitVec.ofNat 32 (32 - w))) (.setReg _ hscratch)
        [.alu .shl (.tmp 0) (.src 0) (.tmp 2), .alu .sar (.tmp 0) (.tmp 0) (.tmp 2), .alu .shl (.tmp 1) (.src 1) (.tmp 2),
          .alu .sar (.tmp 1) (.tmp 1) (.tmp 2)] rfl
      have hshifts : ∀ {r : Byte}, Held r cg.nextReg → ((f.setReg (BitVec.ofNat 8 (cg.nextReg + 2)) (BitVec.ofNat 32 (32 - w))).regs r <<<
          ((f.setReg (BitVec.ofNat 8 (cg.nextReg + 2)) (BitVec.ofNat 32 (32 - w))).regs (BitVec.ofNat 8 (cg.nextReg + 2)) &&& 31)).sshiftRight'
          ((f.setReg (BitVec.ofNat 8 (cg.nextReg + 2)) (BitVec.ofNat 32 (32 - w))).regs (BitVec.ofNat 8 (cg.nextReg + 2)) &&& 31) =
          extendLow true w (f.regs r) := fun hr => by
        rw [Frame.setReg_same, hkeep _ hr]
        exact sar_shl_amount hpos hw _
      exact ⟨f', hprep, (hreads (.tmp 0) rfl).trans (hshifts ha), (hreads (.tmp 1) rfl).trans (hshifts hb), hheld 0 (by decide),
        hheld 1 (by decide)⟩
    | false =>
      simp only [Exec.wp_bind, Bool.false_eq_true, if_false, wp_cgEmit, wp_cgEmitLoadConst32, Exec.wp_pure, Cg.emit_emit]
      obtain ⟨f', hprep, hreads⟩ := prepares_blockFrom host hcode hsrcs (k := 3) (by omega)
        (runs_loadConst32 (f := f) host hcode (BitVec.ofNat 8 (cg.nextReg + 2)) (lowMask 32 w)) (.setReg _ hscratch)
        [.alu .and (.tmp 0) (.src 0) (.tmp 2), .alu .and (.tmp 1) (.src 1) (.tmp 2)] rfl
      have hmask : ∀ {r : Byte}, Held r cg.nextReg → (f.setReg (BitVec.ofNat 8 (cg.nextReg + 2)) (lowMask 32 w)).regs r &&&
          (f.setReg (BitVec.ofNat 8 (cg.nextReg + 2)) (lowMask 32 w)).regs (BitVec.ofNat 8 (cg.nextReg + 2)) =
          extendLow false w (f.regs r) := fun hr => by
        rw [Frame.setReg_same, hkeep _ hr]
        exact and_lowMask _
      exact ⟨f', hprep, (hreads (.tmp 0) rfl).trans (hmask ha), (hreads (.tmp 1) rfl).trans (hmask hb), hheld 0 (by decide),
        hheld 1 (by decide)⟩

/-- The branch and its two moves. -/
theorem wp_cgSelectMove {cg₁ : Cg} {f₁ : Frame κ W} {cond t e : Byte} {c : Bool} {v : Word} (hok : cg.Ok)
    (hprep : Prepares img host cg f cg₁ f₁) (hzero : f.regs cgRegZero = 0) (hcond : f₁.regs cond = boolWord c)
    (ht : c = true → f₁.regs t = v) (he : c = false → f₁.regs e = v) :
    Exec.wp (cgSelectMove dst cond t e) (fun _ => Defines img host cg f dst v) (fun e _ => e.OfOperand) cg₁ := by
  have hz : f₁.regs cg₁.zeroReg = 0 := by rw [(hprep.ok hok).zero, hprep.regs (Or.inr rfl), hzero]
  have hbranch : RunsTo img host (ifEq cond cg₁.zeroReg [encR .mov dst t 0] [encR .mov dst e 0]) f₁
      (f₁.setReg dst v) := by
    refine runs_ifEq hcode (Nat.le_of_ble_eq_true rfl) (Nat.le_of_ble_eq_true rfl) (fun hne => ?_) (fun heq => ?_)
    · have hc : c = true := by
        by_contra hc
        rw [Bool.not_eq_true] at hc
        rw [hz, hcond, hc] at hne
        exact hne rfl
      rw [← ht hc]
      exact runs_mov host hcode dst t 0
    · have hc : ¬c = true := by
        rintro rfl
        rw [hz, hcond] at heq
        exact absurd heq (by decide)
      rw [← he (Bool.not_eq_true _ ▸ hc)]
      exact runs_mov host hcode dst e 0
  simp only [cgSelectMove, Exec.wp_bind, Exec.wp_get, wp_cgEmit, Cg.emit_emit]
  exact (Defines.of_runs hprep.next_le hbranch).after hcode hprep

/-- `is_minmax` -/
theorem wp_cgMinMax (hok : cg.Ok) (hin : InFrame cg img f) (hzero : f.regs cgRegZero = 0) (isMin isSigned : Bool) (hpos : 0 < w) (hw : w ≤ 32)
    (x y : Val) : Exec.wp (cgMinMax isMin isSigned w x y dst)
      (fun _ => Defines img host cg f dst (minMaxWord isMin isSigned w (operandWord cg f x) (operandWord cg f y)))
      (fun e _ => e.OfOperand) cg := by
  unfold cgMinMax
  refine wp_operand (wp_cgRegFor host hcode hok hin x) fun a cg₁ f₁ hprep₁ ha hheld₁ => ?_
  refine wp_operand (wp_cgRegFor host hcode (hprep₁.ok hok) (hprep₁.inFrame hin) y) fun b cg₂ f₂ hprep₂ hb hheld₂ => ?_
  rw [hprep₁.operandWord_eq hok] at hb
  have ha₂ := (hprep₂.regs hheld₁).trans ha
  have hprep := hprep₁.trans hcode hprep₂
  rw [Exec.wp_bind]
  refine Exec.wp_mono ?_ (fun _ _ he => he) (wp_cgExtendBoth (f := f₂) host hcode (hprep.ok hok) isSigned hpos hw (hprep₂.held hheld₁) hheld₂)
  rintro c cg₃ ⟨f₃, hprep₃, hc₁, hc₂, hheldc₁, hheldc₂⟩
  rw [ha₂] at hc₁
  rw [hb] at hc₂
  have ha₃ := (hprep₃.regs (hprep₂.held hheld₁)).trans ha₂
  have hb₃ := (hprep₃.regs hheld₂).trans hb
  have hprep' := hprep.trans hcode hprep₃
  refine wp_alloc (hprep'.ok hok).pool fun hroom => ?_
  rw [Exec.wp_bind, wp_cgEmit]
  obtain ⟨g, hg, hval⟩ := aluOp_lessThan isSigned
  have hcmp := runs_alu (f := f₃) host hcode hg (BitVec.ofNat 8 cg₃.nextReg) c.1 c.2
  rw [hval, hc₁, hc₂] at hcmp
  obtain ⟨f₄, hprep₄, hcond, -⟩ := (GivesReg.of_runs hroom hcmp).prepares
  have ha₄ := (hprep₄.regs (hprep₃.held (hprep₂.held hheld₁))).trans ha₃
  have hb₄ := (hprep₄.regs (hprep₃.held hheld₂)).trans hb₃
  have hall := hprep'.trans hcode hprep₄
  refine wp_cgSelectMove host hcode hok hall hzero hcond (fun hlt => ?_) (fun hge => ?_)
  · rw [minMaxWord, if_pos hlt]
    cases isMin with
    | true => exact ha₄
    | false => exact hb₄
  · rw [minMaxWord, hge, if_neg Bool.false_ne_true]
    cases isMin with
    | true => exact hb₄
    | false => exact ha₄

/-- `is_cmp3` -/
theorem wp_cgCompare3 (hok : cg.Ok) (hin : InFrame cg img f) (isSigned : Bool) (hpos : 0 < w) (hw : w ≤ 32) (x y : Val) :
    Exec.wp (cgCompare3 isSigned w x y dst)
      (fun _ => Defines img host cg f dst (compare3Word isSigned w (operandWord cg f x) (operandWord cg f y)))
      (fun e _ => e.OfOperand) cg := by
  unfold cgCompare3
  refine wp_operand (wp_cgRegFor host hcode hok hin x) fun a cg₁ f₁ hprep₁ ha hheld₁ => ?_
  refine wp_operand (wp_cgRegFor host hcode (hprep₁.ok hok) (hprep₁.inFrame hin) y) fun b cg₂ f₂ hprep₂ hb hheld₂ => ?_
  rw [hprep₁.operandWord_eq hok] at hb
  have ha₂ := (hprep₂.regs hheld₁).trans ha
  have hprep := hprep₁.trans hcode hprep₂
  rw [Exec.wp_bind]
  refine Exec.wp_mono ?_ (fun _ _ he => he) (wp_cgExtendBoth (f := f₂) host hcode (hprep.ok hok) isSigned hpos hw (hprep₂.held hheld₁) hheld₂)
  rintro c cg₃ ⟨f₃, hprep₃, hc₁, hc₂, hheldc₁, hheldc₂⟩
  rw [ha₂] at hc₁
  rw [hb] at hc₂
  have hprep' := hprep.trans hcode hprep₃
  have hpool := (hprep'.ok hok).pool
  refine wp_alloc hpool fun _ => wp_alloc hpool fun (hroom : ¬cg₃.nextReg + 1 > cgMaxEmitReg) => ?_
  simp only [Exec.wp_bind, wp_cgEmit, Cg.emit_emit]
  obtain ⟨g, hg, hval⟩ := aluOp_lessThan isSigned
  have hsrcs : ∀ r ∈ [c.1, c.2], Held r cg₃.nextReg := by
    intro r hr
    simp only [List.mem_cons, List.not_mem_nil, or_false] at hr
    rcases hr with rfl | rfl
    · exact hheldc₁
    · exact hheldc₂
  obtain ⟨f₄, hprep₄, hreads⟩ := prepares_block (f := f₃) host hcode hsrcs (k := 2) (by omega)
    [.alu (if isSigned = true then .cmpLt else .cmpLtu) (.tmp 0) (.src 1) (.src 0),
      .alu (if isSigned = true then .cmpLt else .cmpLtu) (.tmp 1) (.src 0) (.src 1)] (by cases isSigned <;> rfl)
  have hsub := runs_sub (f := f₄) host hcode dst (BitVec.ofNat 8 cg₃.nextReg) (BitVec.ofNat 8 (cg₃.nextReg + 1))
  have hgt : f₄.regs (BitVec.ofNat 8 cg₃.nextReg) = g (f₃.regs c.2) (f₃.regs c.1) := by
    refine (hreads (.tmp 0) rfl).trans ?_
    simp only [evalBlock, BlockInst.eval, hg]
    rfl
  have hlt : f₄.regs (BitVec.ofNat 8 (cg₃.nextReg + 1)) = g (f₃.regs c.1) (f₃.regs c.2) := by
    refine (hreads (.tmp 1) rfl).trans ?_
    simp only [evalBlock, BlockInst.eval, hg]
    rfl
  rw [hgt, hlt, hval, hval, hc₁, hc₂] at hsub
  have hall := hprep'.trans hcode hprep₄
  have hdef : Defines img host cg f dst (compare3Word isSigned w (operandWord cg f x) (operandWord cg f y)) _ :=
    (Defines.of_runs hall.next_le hsub).after hcode hall
  simp only [Cg.emit, List.append_assoc] at hdef ⊢
  exact hdef

/-- `is_sat`, unsigned. -/
theorem wp_cgSaturate (hok : cg.Ok) (hin : InFrame cg img f) (hzero : f.regs cgRegZero = 0) (isSub : Bool) (hpos : 0 < w)
    (x y : Val) : Exec.wp (cgSaturate isSub w x y dst)
      (fun _ => Defines img host cg f dst (saturateWord isSub w (operandWord cg f x) (operandWord cg f y)))
      (fun e _ => e.OfOperand) cg := by
  unfold cgSaturate
  refine wp_operand (wp_cgRegFor host hcode hok hin x) fun a cg₁ f₁ hprep₁ ha hheld₁ => ?_
  refine wp_operand (wp_cgRegFor host hcode (hprep₁.ok hok) (hprep₁.inFrame hin) y) fun b cg₂ f₂ hprep₂ hb hheld₂ => ?_
  rw [hprep₁.operandWord_eq hok] at hb
  have ha₂ := (hprep₂.regs hheld₁).trans ha
  have hprep := hprep₁.trans hcode hprep₂
  have hsrcs : ∀ r ∈ [a, b], Held r cg₂.nextReg := by
    intro r hr
    simp only [List.mem_cons, List.not_mem_nil, or_false] at hr
    rcases hr with rfl | rfl
    · exact hprep₂.held hheld₁
    · exact hheld₂
  have hpool := (hprep.ok hok).pool
  refine wp_alloc hpool fun _ => wp_alloc hpool fun (hroom : ¬cg₂.nextReg + 1 > cgMaxEmitReg) => ?_
  cases isSub with
  | true =>
    simp only [if_true, Exec.wp_bind, wp_cgEmit, Exec.wp_get, Cg.emit_emit]
    obtain ⟨f₃, hprep₃, hreads⟩ := prepares_block (f := f₂) host hcode hsrcs (k := 2) (by omega)
      [.alu .sub (.tmp 0) (.src 0) (.src 1), .alu .cmpLtu (.tmp 1) (.src 0) (.src 1)] rfl
    have hdiff : f₃.regs (BitVec.ofNat 8 cg₂.nextReg) = f₂.regs a - f₂.regs b := hreads (.tmp 0) rfl
    have hcond : f₃.regs (BitVec.ofNat 8 (cg₂.nextReg + 1)) = boolWord (decide (f₂.regs a < f₂.regs b)) := by
      refine (hreads (.tmp 1) rfl).trans ?_
      simp only [boolWord, decide_eq_true_eq]
      rfl
    have hall := hprep.trans hcode hprep₃
    have hz : f₃.regs cg₂.zeroReg = 0 := by
      rw [(hprep.ok hok).zero]
      exact (hall.regs (Or.inr rfl)).trans hzero
    refine wp_cgSelectMove host hcode hok hall hzero hcond (fun hlt => ?_) (fun hge => ?_)
    · rw [← ha₂, ← hb, saturateWord, if_pos rfl, if_pos (of_decide_eq_true hlt)]
      exact hz
    · rw [← ha₂, ← hb, saturateWord, if_pos rfl, if_neg (of_decide_eq_false hge)]
      exact hdiff
  | false =>
    simp only [Bool.false_eq_true, if_false]
    refine wp_alloc hpool fun (hroom' : ¬cg₂.nextReg + 1 + 1 > cgMaxEmitReg) => ?_
    have hnext : cg₂.nextReg + 3 ≤ cgMaxEmitReg + 1 := by omega
    have hne : BitVec.ofNat 8 cg₂.nextReg ≠ BitVec.ofNat 8 (cg₂.nextReg + 2) :=
      RegName.reg_ne hsrcs hnext (x := .tmp 0) (y := .tmp 2) rfl rfl (by decide)
    have hscratch : ∀ j < 3, Scratch cg₂.nextReg (BitVec.ofNat 8 (cg₂.nextReg + j)) := fun j hj =>
      scratch_nextReg (Nat.le_add_right _ j) (by omega)
    have hadd := runs_add (f := f₂) host hcode (BitVec.ofNat 8 cg₂.nextReg) a b
    rw [ha₂, hb] at hadd
    -- the sum is there and the limit is loaded before they are compared
    have hbefore : ∀ limit : Word, ∃ f₃, RunsTo img host ([encR .add (BitVec.ofNat 8 cg₂.nextReg) a b] ++
        loadConst32Words (BitVec.ofNat 8 (cg₂.nextReg + 2)) limit) f₂ f₃ ∧ f₂.AgreesOff (Scratch cg₂.nextReg) f₃ ∧
          f₃.regs (BitVec.ofNat 8 cg₂.nextReg) = operandWord cg f x + operandWord cg f y ∧
          f₃.regs (BitVec.ofNat 8 (cg₂.nextReg + 2)) = limit := by
      intro limit
      refine ⟨_, hadd.append hcode (runs_loadConst32 host hcode _ limit), (Frame.AgreesOff.setReg _ (hscratch 0 (by decide))).trans
        (.setReg _ (hscratch 2 (by decide))), ?_, Frame.setReg_same ..⟩
      rw [Frame.setReg_of_ne _ _ hne, Frame.setReg_same]
    by_cases hnarrow : w < 32
    · rw [if_pos ⟨hpos, hnarrow⟩]
      simp only [Exec.wp_bind, wp_cgEmit, wp_cgEmitLoadConst32, Cg.emit_emit]
      obtain ⟨f₃, hrun, hag, hsum, hlim⟩ := hbefore (lowMask 32 w)
      obtain ⟨f₄, hprep₄, hreads⟩ := prepares_blockFrom host hcode hsrcs hnext hrun hag [.alu .cmpLtu (.tmp 1) (.tmp 2) (.tmp 0)] rfl
      have hcond : f₄.regs (BitVec.ofNat 8 (cg₂.nextReg + 1)) =
          boolWord (decide (lowMask 32 w < operandWord cg f x + operandWord cg f y)) := by
        refine (hreads (.tmp 1) rfl).trans ?_
        rw [← hsum, ← hlim]
        simp only [boolWord, decide_eq_true_eq]
        rfl
      refine wp_cgSelectMove host hcode hok (hprep.trans hcode hprep₄) hzero hcond (fun hlt => ?_) (fun hge => ?_)
      · rw [saturateWord, if_neg Bool.false_ne_true, if_pos hnarrow, if_pos (of_decide_eq_true hlt)]
        exact (hreads (.tmp 2) rfl).trans hlim
      · rw [saturateWord, if_neg Bool.false_ne_true, if_pos hnarrow, if_neg (of_decide_eq_false hge)]
        exact (hreads (.tmp 0) rfl).trans hsum
    · rw [if_neg fun h => hnarrow h.2]
      simp only [Exec.wp_bind, wp_cgEmit, wp_cgEmitLoadConst32, Cg.emit_emit]
      obtain ⟨limit, hlimit⟩ : ∃ limit : Word, limit = -1 := ⟨_, rfl⟩
      rw [← hlimit]
      obtain ⟨f₃, hrun, hag, hsum, hlim⟩ := hbefore limit
      obtain ⟨f₄, hprep₄, hreads⟩ := prepares_blockFrom host hcode hsrcs hnext hrun hag [.alu .cmpLtu (.tmp 1) (.tmp 0) (.src 0)] rfl
      have ha₃ : f₃.regs a = operandWord cg f x := by
        rw [hag.regs a ((hprep₂.held hheld₁).not_scratch hprep₂.next_le), ha₂]
      have hcond : f₄.regs (BitVec.ofNat 8 (cg₂.nextReg + 1)) =
          boolWord (decide (operandWord cg f x + operandWord cg f y < operandWord cg f x)) := by
        refine (hreads (.tmp 1) rfl).trans ?_
        rw [← hsum, ← ha₃]
        simp only [boolWord, decide_eq_true_eq]
        rfl
      refine wp_cgSelectMove host hcode hok (hprep.trans hcode hprep₄) hzero hcond (fun hlt => ?_) (fun hge => ?_)
      · rw [saturateWord, if_neg Bool.false_ne_true, if_neg hnarrow, if_pos (of_decide_eq_true hlt)]
        exact (hreads (.tmp 2) rfl).trans (hlim.trans hlimit)
      · rw [saturateWord, if_neg Bool.false_ne_true, if_neg hnarrow, if_neg (of_decide_eq_false hge)]
        exact (hreads (.tmp 0) rfl).trans hsum

end code

end CronoVM
