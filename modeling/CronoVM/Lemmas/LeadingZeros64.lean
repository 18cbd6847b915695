import CronoVM.Lemmas.BitIntrinsics

/-!
# Leading zeros of a value of two words

The zeros of both words are counted, and the high word decides. The result is in slots.
-/

namespace CronoVM

open Checked Ir NarrowInt BitCount

variable {κ W : Type}

/-! ## Leading zeros of two words -/

/-- The words of `cgClz32`, with `x` in the fifth register and the constants in the first two. -/
def clzWords (ρ : RegName → Byte) (c s : RegName) : List Word :=
  scriptWords ρ [.op (.mov (.tmp 4) s), .op (.movi c 0)] ++
    (untilEq (ρ (.tmp 4)) (ρ (.src 2)) (scriptWords ρ (shiftTurn (.tmp 4) c (.tmp 0))) ++ scriptWords ρ [.op (.alu .sub c (.tmp 1) c)])

/-- The high word decides which of the two counts is the result. -/
theorem clz_words (hi lo : Word) : (hi ++ lo).clz = (0 : Word) ++
    (if hi = 0 then BitVec.ofNat 32 32 + BitVec.ofNat 32 (32 - lo.toNat.size) else BitVec.ofNat 32 (32 - hi.toNat.size)) := by
  have hlo := TwoWord.toNat_clz lo
  have hhi := TwoWord.toNat_clz hi
  apply BitVec.eq_of_toNat_eq
  rw [TwoWord.clz_append, BitVec.toNat_append]
  have hzero : (0 : Word).toNat <<< 32 = 0 := rfl
  rw [hzero, Nat.zero_or]
  by_cases h : hi = 0
  · rw [if_pos h, if_pos (show hi = 0#32 from h), BitVec.toNat_add, BitVec.toNat_ofNat, BitVec.toNat_ofNat]
    omega
  · rw [if_neg h, if_neg (show ¬hi = 0#32 from h), BitVec.toNat_ofNat]
    omega

section wide

variable {img : Image κ} (host : Host κ W) {f : Frame κ W} {lo hi z : Byte} {n : Nat} {e : RegName → Word}

variable (hcode : img.code.length = img.codeCount.toNat)
include hcode

theorem runsIn_clzWords (hsrcs : ∀ r ∈ [lo, hi, z], Held r n) (hnext : n + 6 ≤ cgMaxEmitReg + 1) {c s : Nat} (hc : 1 < c) (hc4 : c < 4)
    (hs : s < 2) (hreads : Reads [lo, hi, z] n 6 f e) (hone : e (.tmp 0) = 1) (hwide : e (.tmp 1) = 32) (hzero : e (.src 2) = 0) :
    ∃ g e', RunsIn img host 132 (clzWords (RegName.reg [lo, hi, z] n) (.tmp c) (.src s)) f g ∧ f.AgreesOff (Scratch n) g ∧
      Reads [lo, hi, z] n 6 g e' ∧ e' (.tmp c) = BitVec.ofNat 32 (32 - (e (.src s)).toNat.size) ∧
        ∀ y, y ≠ .tmp 4 → y ≠ .tmp c → e' y = e y := by
  have hc6 : c < 6 := by omega
  have hs3 : s < 3 := by omega
  have hc0 : c ≠ 0 := by omega
  have hc1 : c ≠ 1 := by omega
  have hcx : c ≠ 4 := by omega
  have hsize : (e (.src s)).toNat.size ≤ 32 := Nat.size_le.mpr (e (.src s)).isLt
  obtain ⟨f₁, hrun₁, hag₁, hreads₁⟩ := runsIn_script host hcode hsrcs hnext [.op (.mov (.tmp 4) (.src s)), .op (.movi (.tmp c) 0)]
    (by simp [ScriptInst.ok, BlockInst.ok, RegName.ok, hc6, hs3]) hreads
  have hfirst : ∀ y, evalScript [.op (.mov (.tmp 4) (.src s)), .op (.movi (.tmp c) 0)] e y =
      if y = .tmp c then 0 else if y = .tmp 4 then e (.src s) else e y := by
    intro y
    simp only [evalScript, ScriptInst.eval, BlockInst.eval, Function.update_apply]
    rfl
  generalize evalScript [.op (.mov (.tmp 4) (.src s)), .op (.movi (.tmp c) 0)] e = e₁ at hreads₁ hfirst
  have hx₁ : e₁ (.tmp 4) = e (.src s) := by simp [hfirst, hcx.symm]
  have hkeep₁ : ∀ y, y ≠ .tmp 4 → y ≠ .tmp c → e₁ y = e y := fun y hy hy' => by rw [hfirst, if_neg hy', if_neg hy]
  obtain ⟨f₂, e₂, hrun₂, hag₂, hreads₂, hcount, hrest⟩ := runsIn_sizeLoop (x := .tmp 4) (c := .tmp c) (z := .src 2) host hcode
    hsrcs hnext (.tmp 0) ⟨by simp [hcx.symm], by decide, by simp [hc0]⟩ (by decide) (by simp)
    (by simp [shiftTurn, ScriptInst.ok, BlockInst.ok, RegName.ok, aluOp, hc6]) rfl rfl hreads₁
    ((hkeep₁ _ (by decide) (by simp [hc0.symm])).trans hone) ((hkeep₁ _ (by decide) (by simp)).trans hzero)
  obtain ⟨f₃, hrun₃, hag₃, hreads₃⟩ := runsIn_script host hcode hsrcs hnext [.op (.alu .sub (.tmp c) (.tmp 1) (.tmp c))]
    (by simp [ScriptInst.ok, BlockInst.ok, RegName.ok, aluOp, hc6]) hreads₂
  have hlast : ∀ y, evalScript [.op (.alu .sub (.tmp c) (.tmp 1) (.tmp c))] e₂ y =
      if y = .tmp c then e₂ (.tmp 1) - e₂ (.tmp c) else e₂ y := by
    intro y
    simp only [evalScript, ScriptInst.eval, BlockInst.eval, Function.update_apply]
    rfl
  have hall := hrun₁.append hcode (hrun₂.append hcode hrun₃)
  refine ⟨f₃, _, hall.mono (Nat.le_of_ble_eq_true rfl), (hag₁.trans hag₂).trans hag₃, hreads₃, ?_, fun y hy hy' => ?_⟩
  · have hwide₂ : e₂ (.tmp 1) = BitVec.ofNat 32 32 :=
      (hrest _ (by decide) (by simp [hc1.symm])).trans ((hkeep₁ _ (by decide) (by simp [hc1.symm])).trans hwide)
    have hzero₁ : e₁ (.tmp c) = 0 := by rw [hfirst, if_pos rfl]
    rw [hlast, if_pos rfl, hcount, hwide₂, hzero₁, hx₁]
    have hadd : (0 : Word) + BitVec.ofNat 32 (e (.src s)).toNat.size = BitVec.ofNat 32 (e (.src s)).toNat.size := BitVec.zero_add _
    rw [hadd]
    exact ofNat_sub_ofNat hsize (by decide)
  · rw [hlast, if_neg hy', hrest y hy hy', hkeep₁ y hy hy']

/-- The words of `llvm.ctlz.i64` before the result is stored. -/
def ctlz64Words (ρ : RegName → Byte) : List Word :=
  scriptWords ρ [.op (.movi (.tmp 0) 1), .op (.movi (.tmp 1) 32)] ++ (clzWords ρ (.tmp 2) (.src 0) ++ (clzWords ρ (.tmp 3) (.src 1) ++
    (scriptWords ρ [.op (.alu .add (.tmp 5) (.tmp 1) (.tmp 2))] ++
      (skipIfEq (ρ (.src 1)) (ρ (.src 2)) (scriptWords ρ [.op (.mov (.tmp 5) (.tmp 3))]) ++ []))))

theorem runsIn_ctlz64Words (hsrcs : ∀ r ∈ [lo, hi, z], Held r n) (hnext : n + 6 ≤ cgMaxEmitReg + 1) (hreads : Reads [lo, hi, z] n 6 f e)
    (hzero : e (.src 2) = 0) : ∃ g e', RunsIn img host 269 (ctlz64Words (RegName.reg [lo, hi, z] n)) f g ∧ f.AgreesOff (Scratch n) g ∧
      Reads [lo, hi, z] n 6 g e' ∧ (0 : Word) ++ e' (.tmp 5) = (e (.src 1) ++ e (.src 0)).clz := by
  obtain ⟨f₁, hrun₁, hag₁, hreads₁⟩ := runsIn_script host hcode hsrcs hnext [.op (.movi (.tmp 0) 1), .op (.movi (.tmp 1) 32)] rfl hreads
  have hkeep₁ : ∀ y : Nat, evalScript [.op (.movi (.tmp 0) 1), .op (.movi (.tmp 1) 32)] e (.src y) = e (.src y) := fun _ => rfl
  have hone₁ : evalScript [.op (.movi (.tmp 0) 1), .op (.movi (.tmp 1) 32)] e (.tmp 0) = 1 := rfl
  have hwide₁ : evalScript [.op (.movi (.tmp 0) 1), .op (.movi (.tmp 1) 32)] e (.tmp 1) = 32 := rfl
  generalize evalScript [.op (.movi (.tmp 0) 1), .op (.movi (.tmp 1) 32)] e = e₁ at hreads₁ hkeep₁ hone₁ hwide₁
  obtain ⟨f₂, e₂, hrun₂, hag₂, hreads₂, hlo, hkeep₂⟩ := runsIn_clzWords (c := 2) (s := 0) host hcode hsrcs hnext (by decide) (by decide) (by decide)
    hreads₁ hone₁ hwide₁ ((hkeep₁ 2).trans hzero)
  have hsrc₂ : ∀ y : Nat, e₂ (.src y) = e (.src y) := fun y => (hkeep₂ _ (by simp) (by simp)).trans (hkeep₁ y)
  obtain ⟨f₃, e₃, hrun₃, hag₃, hreads₃, hhi, hkeep₃⟩ := runsIn_clzWords (c := 3) (s := 1) host hcode hsrcs hnext (by decide) (by decide) (by decide)
    hreads₂ ((hkeep₂ _ (by decide) (by decide)).trans hone₁) ((hkeep₂ _ (by decide) (by decide)).trans hwide₁) ((hsrc₂ 2).trans hzero)
  have hsrc₃ : ∀ y : Nat, e₃ (.src y) = e (.src y) := fun y => (hkeep₃ _ (by simp) (by simp)).trans (hsrc₂ y)
  have hwide₃ : e₃ (.tmp 1) = 32 := (hkeep₃ _ (by decide) (by decide)).trans ((hkeep₂ _ (by decide) (by decide)).trans hwide₁)
  have hlo₃ : e₃ (.tmp 2) = BitVec.ofNat 32 (32 - (e (.src 0)).toNat.size) := by
    rw [hkeep₃ _ (by decide) (by decide), hlo, hkeep₁]
  rw [hsrc₂] at hhi
  obtain ⟨f₄, hrun₄, hag₄, hreads₄⟩ := runsIn_script host hcode hsrcs hnext [.op (.alu .add (.tmp 5) (.tmp 1) (.tmp 2))] rfl hreads₃
  have hres₄ : evalScript [.op (.alu .add (.tmp 5) (.tmp 1) (.tmp 2))] e₃ (.tmp 5) = e₃ (.tmp 1) + e₃ (.tmp 2) := rfl
  have hhi₄ : evalScript [.op (.alu .add (.tmp 5) (.tmp 1) (.tmp 2))] e₃ (.tmp 3) = e₃ (.tmp 3) := rfl
  have hsrc₄ : ∀ y : Nat, evalScript [.op (.alu .add (.tmp 5) (.tmp 1) (.tmp 2))] e₃ (.src y) = e₃ (.src y) := fun _ => rfl
  generalize evalScript [.op (.alu .add (.tmp 5) (.tmp 1) (.tmp 2))] e₃ = e₄ at hreads₄ hres₄ hhi₄ hsrc₄
  have hstart := fun {g : Frame κ W} {us : List Word} {m : Nat} (hrest : RunsIn img host m us f₄ g) =>
    hrun₁.append hcode (hrun₂.append hcode (hrun₃.append hcode (hrun₄.append hcode hrest)))
  have hag := ((hag₁.trans hag₂).trans hag₃).trans hag₄
  have hfirst := hreads₄ (.src 1) rfl
  have hlast := hreads₄ (.src 2) rfl
  rw [hsrc₄, hsrc₃] at hfirst hlast
  rw [hzero] at hlast
  by_cases h : e (.src 1) = 0
  · -- the count of the low word stays
    have heq : f₄.regs (RegName.reg [lo, hi, z] n (.src 1)) = f₄.regs (RegName.reg [lo, hi, z] n (.src 2)) := by rw [hfirst, hlast, h]
    have hend : RunsIn img host 0 [] f₄ f₄ := .nil
    have hskip := runsIn_skipInto hcode (show (scriptWords (RegName.reg [lo, hi, z] n) [.op (.mov (.tmp 5) (.tmp 3))]).length ≤ 127 from
      Nat.le_of_ble_eq_true rfl) (fun hne => absurd heq hne) fun _ => hend
    refine ⟨f₄, e₄, (hstart hskip).mono (Nat.le_of_ble_eq_true rfl), hag, hreads₄, ?_⟩
    rw [clz_words, if_pos h, hres₄, hwide₃, hlo₃]
    rfl
  · obtain ⟨f₅, hrun₅, hag₅, hreads₅⟩ := runsIn_script host hcode hsrcs hnext [.op (.mov (.tmp 5) (.tmp 3))] rfl hreads₄
    have hne : f₄.regs (RegName.reg [lo, hi, z] n (.src 1)) ≠ f₄.regs (RegName.reg [lo, hi, z] n (.src 2)) := by rwa [hfirst, hlast]
    have hskip := runsIn_skipInto hcode (Nat.le_of_ble_eq_true rfl) (fun _ => hrun₅.append hcode .nil) fun heq => absurd heq hne
    refine ⟨f₅, _, (hstart hskip).mono (Nat.le_of_ble_eq_true rfl), hag.trans hag₅, hreads₅, ?_⟩
    have hres₅ : evalScript [.op (.mov (.tmp 5) (.tmp 3))] e₄ (.tmp 5) = e₄ (.tmp 3) := rfl
    rw [clz_words, if_neg h, hres₅, hhi₄, hhi]

end wide

section wideCode

variable {img : Image κ} (host : Host κ W) {cg : Cg} {f : Frame κ W} {i : Inst}

variable (hcode : img.code.length = img.codeCount.toNat)
include hcode

/-- A register is stored in the frame, in at most four steps. -/
theorem runsIn_stwSpOff {offset : Word} {srcReg : Byte} (hsrc : srcReg ≠ cgRegScratch) (h : InMemory img f (f.regs regSp + offset)) :
    RunsIn img host 4 (stwSpOffWords offset srcReg) f
      ((f.setReg cgRegScratch (f.regs regSp + offset)).setWord (f.regs regSp + offset).toNat (f.regs srcReg)) := by
  have hload := runsIn_loadConst32 (f := f) host hcode cgRegScratch offset
  have hadd := steps_alu (f := f.setReg cgRegScratch offset) host hcode (rfl : aluOp .add = some _) cgRegScratch regSp cgRegScratch
  rw [Frame.setReg_same, Frame.setReg_of_ne _ _ (by decide), Frame.setReg_setReg] at hadd
  have hstw := steps_stw (f := f.setReg cgRegScratch (f.regs regSp + offset)) host hcode 0 cgRegScratch srcReg
    (by rw [Frame.setReg_same]; exact h)
  rw [Frame.setReg_same, Frame.setReg_of_ne _ _ hsrc] at hstw
  have hlen := length_loadConst32Words_le cgRegScratch offset
  exact ((hload.append hcode (.of_steps hadd)).append hcode (.of_steps hstw)).mono (by omega)

/-- Two registers are stored in the slots of a value of two words. -/
theorem runsIn_i64Write (hok : cg.Ok) (hin : InFrame cg img f) {slot : Nat} (hslot : slot + 1 < cg.valSpillCount) {lo hi : Byte}
    (hlo : lo ≠ cgRegScratch) (hhi : hi ≠ cgRegScratch) : ∃ g, RunsIn img host 8
      (stwSpOffWords (cg.valSlotOff slot) lo ++ stwSpOffWords (cg.valSlotOff slot + 4) hi) f g ∧
      (f.setWide (slotAddr cg f slot) (f.regs hi ++ f.regs lo)).AgreesOff OnlyR254 g := by
  have hstore₁ := runsIn_stwSpOff host hcode hlo (inMemory_valSlotOff hok hin (Nat.lt_of_succ_lt hslot))
  rw [toNat_valSlotOff hok hin (Nat.lt_of_succ_lt hslot)] at hstore₁
  have hscratch₁ : f.AgreesOff OnlyR254 (f.setReg cgRegScratch (f.regs regSp + cg.valSlotOff slot)) := .setReg _ rfl
  have hag₁ := hscratch₁.setWord (slotAddr cg f slot) (f.regs lo)
  generalize (f.setReg cgRegScratch (f.regs regSp + cg.valSlotOff slot)).setWord (slotAddr cg f slot) (f.regs lo) = f₁ at hstore₁ hag₁
  have hsp : f₁.regs regSp = f.regs regSp := hag₁.regs regSp not_onlyR254_sp
  have hhi₁ : f₁.regs hi = f.regs hi := hag₁.regs hi hhi
  have hin₁ : InFrame cg img f₁ := by
    refine ⟨?_, by rw [hsp]; exact hin.fits⟩
    rw [hag₁.heap]
    exact hin.size
  have hstore₂ := runsIn_stwSpOff host hcode hhi (inMemory_valSlotOff hok hin₁ hslot)
  rw [toNat_valSlotOff hok hin₁ hslot, slotAddr_of_sp hsp, hhi₁, ← slotAddr_add_four, ← valSlotOff_add_four] at hstore₂
  refine ⟨_, hstore₁.append hcode hstore₂, ?_⟩
  rw [setWide_append]
  have hscratch : f₁.AgreesOff OnlyR254 (f₁.setReg cgRegScratch (f₁.regs regSp + (cg.valSlotOff slot + 4))) := .setReg _ rfl
  exact (hag₁.trans hscratch).setWord _ _

/-- The code of `llvm.ctlz.i64` behind the operand. -/
theorem wp_ctlz64Body (hok : cg.Ok) (hin : InFrame cg img f) (hzero : f.regs cgRegZero = 0) {v : Byte × Byte} {x : BitVec 64}
    (hv : HeldWide cg f v x) {slot : Nat} (hslot : slot + 1 < cg.valSpillCount) : Exec.wp (do
      let one ← cgAllocReg
      let k32 ← cgAllocReg
      let clo ← cgAllocReg
      let chi ← cgAllocReg
      let x ← cgAllocReg
      let res ← cgAllocReg
      let zero := (← Exec.get).zeroReg
      cgEmit (encI16 .movi one 1)
      cgEmit (encI16 .movi k32 32)
      cgClz32 clo x v.1 one k32
      cgClz32 chi x v.2 one k32
      cgEmit (encR .add res k32 clo)
      cgEmit (encBr .beq v.2 zero 1)
      cgEmit (encR .mov res chi 0)
      cgI64Write slot res zero) (fun _ cg' => ∃ ws m f', cg' = { cg with code := cg.code ++ ws, nextReg := m } ∧ cg.nextReg ≤ m ∧
        m ≤ cgMaxEmitReg + 1 ∧ RunsIn img host 300 ws f f' ∧ (f.setWide (slotAddr cg f slot) x.clz).AgreesOff (Scratch cg.nextReg) f')
      (fun e _ => e.OfOperand) cg := by
  have hpool := hok.pool
  refine wp_extend (wp_allocNext hpool fun _ => wp_allocNext hpool fun _ => wp_allocNext hpool fun _ => wp_allocNext hpool fun _ =>
    wp_allocNext hpool fun _ => wp_allocNext hpool fun hroom => ?_)
  rw [Exec.wp_bind, Exec.wp_get]
  refine wp_emitNext (wp_emitNext ?_)
  rw [Exec.wp_bind, cgClz32, Exec.wp_bind, Exec.wp_get]
  refine wp_emitNext (wp_emitNext (wp_emitNext (wp_emitNext (wp_emitNext (wp_emitNext ?_)))))
  rw [wp_cgEmit, Cg.extend_emit, Exec.wp_bind, cgClz32, Exec.wp_bind, Exec.wp_get]
  refine wp_emitNext (wp_emitNext (wp_emitNext (wp_emitNext (wp_emitNext (wp_emitNext ?_)))))
  rw [wp_cgEmit, Cg.extend_emit]
  refine wp_emitNext (wp_emitNext (wp_emitNext ?_))
  rw [cgI64Write, Exec.wp_bind, Exec.wp_get, Exec.wp_bind, wp_cgStwSpOff, Cg.extend_emit, wp_cgStwSpOff, Cg.extend_emit]
  have hheld : ∀ r ∈ [v.1, v.2, cg.zeroReg], Held r cg.nextReg := by
    intro r hr
    simp only [List.mem_cons, List.not_mem_nil, or_false] at hr
    rcases hr with rfl | rfl | rfl
    · exact hv.held_lo
    · exact hv.held_hi
    · exact Or.inr hok.zero
  have hz : f.regs cg.zeroReg = 0 := by rw [hok.zero, hzero]
  have hnext : cg.nextReg + 6 ≤ cgMaxEmitReg + 1 := by omega
  obtain ⟨g, e, hrun, hag, hreads, hcount⟩ := runsIn_ctlz64Words (f := f) host hcode hheld hnext (fun _ _ => rfl) hz
  have hsp : g.regs regSp = f.regs regSp := hag.regs regSp (not_scratch_of_gt (Or.inr rfl))
  have hin' : InFrame cg img g := by
    refine ⟨?_, by rw [hsp]; exact hin.fits⟩
    rw [hag.heap]
    exact hin.size
  have hlast : (BitVec.ofNat 8 (cg.nextReg + 5)).toNat = cg.nextReg + 5 := toNat_nextReg hroom
  have hheld₅ : Held (BitVec.ofNat 8 (cg.nextReg + 5)) (cg.nextReg + 6) := Or.inl (by omega)
  have hres : RegName.reg [v.1, v.2, cg.zeroReg] cg.nextReg (.tmp 5) ≠ cgRegScratch := hheld₅.ne_r254 hnext
  have hz254 : cg.zeroReg ≠ cgRegScratch := by
    rw [hok.zero]
    decide
  obtain ⟨f', hstore, hag'⟩ := runsIn_i64Write host hcode hok hin' hslot hres hz254
  rw [slotAddr_of_sp hsp, hreads (.tmp 5) rfl, hag.regs _ (not_scratch_of_gt (Or.inl hok.zero)), hz] at hag'
  have hclz : (0 : Word) ++ e (.tmp 5) = x.clz := hcount.trans (congrArg BitVec.clz hv.val)
  rw [hclz] at hag'
  refine ⟨_, cg.nextReg + 6, f', ?_, Nat.le_add_right _ 6, hnext, (hrun.append hcode hstore).mono (Nat.le_of_ble_eq_true rfl), ?_⟩
  · simp [Cg.extend, Cg.emit, ctlz64Words, clzWords, scriptWords, ScriptInst.words, BlockInst.word, untilEq, skipIfEq, RegName.reg, shiftTurn]
    rfl
  · exact (hag.setWide _ _).trans (hag'.mono fun r hr => hr.scratch _)

/-- `llvm.ctlz.i64` -/
theorem wp_cgCtlz64 (hok : cg.Ok) (hin : InFrame cg img f) (hzero : f.regs cgRegZero = 0) {home : Home} {slot : Nat}
    (hhome : cg.home? i.result = some home) (hslot : home.i64Slot = some slot) : Exec.wp (cgCtlz64 i) (fun _ cg' => ∃ v cg₁ f₁ ws m f',
      cgI64Read (i.operand 0) cg = .val v cg₁ ∧ Emitted img host cg cg₁ f f₁ ∧ HeldWide cg₁ f₁ v (wideVal cg f (i.operand 0)) ∧
      cg' = { cg₁ with code := cg₁.code ++ ws, nextReg := m } ∧ RunsIn img host 300 ws f₁ f' ∧
      f'.wideAt (slotAddr cg f slot) = (wideVal cg f (i.operand 0)).clz ∧
      Leaves img host cg f (f.setWide (slotAddr cg f slot) (wideVal cg f (i.operand 0)).clz) cg') (fun e _ => e.OfOperand) cg := by
  have hlt := hok.wide_lt _ home slot hhome hslot
  have hlookup : cg.lookup (.loc i.result) = some home := hhome
  unfold cgCtlz64
  rw [Exec.wp_bind, Exec.wp_get, hlookup]
  refine Exec.wp_bind_of (wp_cgI64Read host hcode hok hin (i.operand 0)) fun v cg₁ hread hgives => ?_
  obtain ⟨f₁, hprep, hheld⟩ := hgives
  have hlt₁ : slot + 1 < cg₁.valSpillCount := by rwa [hprep.valSpillCount_eq]
  have hzero₁ : f₁.regs cgRegZero = 0 := (hprep.agrees.regs _ (not_scratch_of_gt (Or.inl rfl))).trans hzero
  rw [hslot]
  refine Exec.wp_mono ?_ (fun _ _ he => he) (wp_ctlz64Body host hcode (hprep.ok hok) (hprep.inFrame hin) hzero₁ hheld hlt₁)
  rintro _ cg' ⟨ws, m, f', rfl, hge, hle, hrun, hag⟩
  rw [hprep.slotAddr_eq] at hag
  refine ⟨v, cg₁, f₁, ws, m, f', hread, hprep.emitted, hheld, rfl, hrun, ?_, ?_⟩
  · rw [Frame.wideAt, hag.heap]
    exact Frame.wideAt_setWide ..
  · have hem := hprep.emitted.trans hcode ⟨ws, m, rfl, hrun.runsTo⟩
    have hall := (hprep.agrees.setWide (slotAddr cg f slot) (wideVal cg f (i.operand 0)).clz).trans
      (hag.mono fun r hr => hr.mono hprep.next_ge)
    exact ⟨hem.ok hok (Nat.le_trans hok.high_le (Nat.le_trans hprep.next_ge hge)) hle, f', hem, hall.mono fun r hr => hr.mono hok.high_le⟩

end wideCode

end CronoVM
