import CronoVM.Lemmas.Footprint
import CronoVM.Lemmas.StraightCode
import CronoVM.Theorems.Safety

/-!
# Calls

CALL and CALLR differ in where they take the number of the function from. From there on they are one piece of code: two checks of the
number, one of SP, the push of the return pc and the jump.
-/

namespace CronoVM

open Checked Vm

variable {κ W : Type}

/-- A call of function number `fid` is next. -/
def NextCall (img : Image κ) (f : Frame κ W) (fid : Word) : Prop :=
  ∃ w, (NextIs img f .call w ∧ fid = instImm24 w) ∨ (NextIs img f .callr w ∧ fid = f.regs (instA w))

/-- The call passes its three checks. -/
structure CallTaken (img : Image κ) (fid : Word) (f : Frame κ W) : Prop where
  fid_ne : fid ≠ 0
  fid_lt : fid < img.funcCount
  sp_ge : 4 ≤ f.regs regSp
  sp_le : f.regs regSp ≤ img.memSize

/-- The code of a call that fails one of them: of a number that is none of the table's, or of SP. -/
def callTrap (img : Image κ) (fid : Word) : CvmResult :=
  if fid = 0 then .nullFuncPtr else if img.funcCount ≤ fid then .badFuncIndex else .stackOverflow

theorem callTrap_ne_ok (img : Image κ) (fid : Word) : callTrap img fid ≠ .ok := by
  unfold callTrap
  split
  · decide
  · split <;> decide

/-- The state after a call that passes them. -/
def afterCall (img : Image κ) (fid : Word) (f : Frame κ W) : Frame κ W :=
  { f with
    heap := f.heap.setWord (f.regs regSp - 4).toNat f.pc
    regs := Function.update f.regs regSp (f.regs regSp - 4)
    pc := img.funcTable.getD fid.toNat 0 }

@[simp] theorem afterCall_sp (img : Image κ) (fid : Word) (f : Frame κ W) :
    (afterCall img fid f).regs regSp = f.regs regSp - 4 := by
  simp only [afterCall, Function.update_self]

namespace CallsAux

variable {build : Build} {img : Image κ} {host : Host κ W} {f g : Frame κ W} {fid : Word}

/-- What both handlers do with the number of the function. -/
def callTo (img : Image κ) (fid : Word) : Vm κ W Unit := do
  failIf (fid = 0) .nullFuncPtr
  failIf (fid ≥ img.funcCount) .badFuncIndex
  let sp ← reg regSp
  failIf (sp < 4 ∨ sp > img.memSize) .stackOverflow
  store32 (sp - 4).toNat (← getPc)
  setReg regSp (sp - 4)
  setPc (← funcOffset img fid)

/-- An instruction that is no HALT stands inside the code. -/
theorem pc_lt_of_nextIs {op : Opcode} {w : Word} (h : NextIs img f op w) (hop : op ≠ .halt) : f.pc.toNat < img.code.length := by
  obtain ⟨hw, hcode⟩ := h
  by_contra hge
  rw [List.getD_eq_getElem?_getD, List.getElem?_eq_none (Nat.le_of_not_lt hge)] at hw
  rw [← hw] at hcode
  exact hop (Opcode.code_injective hcode.symm)

/-- The step of an instruction is its case. -/
theorem step_of_nextIs (himg : img.Wf) {op : Opcode} {w : Word} (h : NextIs img f op w) (hop : op ≠ .halt) :
    build.step img host f = Switch.cases img host w (instA w) (instB w) (instC w) op { f with pc := f.pc + 1 } := by
  have hpc := pc_lt_of_nextIs h hop
  have hlt : ¬f.pc ≥ img.codeCount := by
    rw [himg.code_length] at hpc
    exact BitVec.not_le.mpr hpc
  obtain ⟨hw, hcode⟩ := h
  rw [SafetyAux.build_step]
  simp only [Switch.step, Exec.run_bind, getPc, Exec.run_get, Exec.run_pure, failIf, Exec.run_stopIf_of_not f hlt, codeAt,
    Exec.run_demand_of f hpc, setPc, Exec.run_modify, hw, hcode, Opcode.ofByte?_code]

theorem step_nextCall (himg : img.Wf) (h : NextCall img f fid) : build.step img host f = callTo img fid { f with pc := f.pc + 1 } := by
  obtain ⟨w, ⟨hcall, rfl⟩ | ⟨hcallr, rfl⟩⟩ := h
  · rw [step_of_nextIs himg hcall (by decide)]
    rfl
  · rw [step_of_nextIs himg hcallr (by decide)]
    change (reg (instA w) >>= fun fid => callTo img fid) { f with pc := f.pc + 1 } = _
    rw [Exec.run_bind, run_reg]

/-- A call that passes its checks pushes the pc and jumps. -/
theorem callTo_of_taken (himg : img.Wf) (hsize : f.heap.size = img.memSize.toNat) (h : CallTaken img fid f) :
    callTo img fid f = .val () (afterCall img fid f) := by
  obtain ⟨hne, hlt, hge, hle⟩ := h
  have hsp : ¬(f.regs regSp < 4 ∨ f.regs regSp > img.memSize) := by
    rintro (hlow | hhigh)
    · exact absurd hge (BitVec.not_le.mpr hlow)
    · exact absurd hle (BitVec.not_le.mpr hhigh)
  have hroom : (f.regs regSp - 4).toNat + 4 ≤ f.heap.size := by
    rw [hsize]
    exact BoundsAux.push_le hsp
  have htable : fid.toNat < img.funcTable.length := by
    rw [himg.funcs_length]
    exact hlt
  have hwp : Exec.wp (callTo img fid) (fun _ g => g = afterCall img fid f) (fun _ _ => False) f := by
    simp only [callTo, Exec.wp_bind, wp_failIf, wp_reg, wp_setReg, wp_getPc, wp_setPc, wp_funcOffset, store32, wp_writeAt]
    refine ⟨hne, fun _ => ⟨fun hge' => absurd hlt (BitVec.not_lt.mpr hge'), fun _ => ⟨hsp, fun _ => ⟨hroom, htable, rfl⟩⟩⟩⟩
  unfold Exec.wp at hwp
  cases hrun : callTo img fid f with
  | val u g =>
    rw [hrun] at hwp
    rw [hwp]
  | stop e g =>
    rw [hrun] at hwp
    exact hwp.elim
  | oob =>
    rw [hrun] at hwp
    exact hwp.elim

/-- A call that fails one of them ends the run with its code. -/
theorem callTo_of_not_taken (h : ¬CallTaken img fid f) :
    callTo img fid f = .stop ⟨callTrap img fid, none⟩ f := by
  unfold callTrap
  by_cases hzero : fid = 0
  · rw [if_pos hzero]
    simp only [callTo, Exec.run_bind, failIf, Exec.run_stopIf_of f hzero]
  rw [if_neg hzero]
  by_cases hcount : fid ≥ img.funcCount
  · rw [if_pos hcount]
    simp only [callTo, Exec.run_bind, failIf, Exec.run_stopIf_of_not f hzero, Exec.run_stopIf_of f hcount]
  have hsp : f.regs regSp < 4 ∨ f.regs regSp > img.memSize := by
    by_contra hno
    rw [not_or] at hno
    exact h ⟨hzero, BitVec.not_le.mp hcount, BitVec.not_lt.mp hno.1, BitVec.not_lt.mp hno.2⟩
  rw [if_neg hcount]
  simp only [callTo, Exec.run_bind, failIf, Exec.run_stopIf_of_not f hzero, Exec.run_stopIf_of_not f hcount, run_reg,
    Exec.run_stopIf_of f hsp]

/-- A return, where SP points to an address in the code. -/
theorem step_ret (himg : img.Wf) {w : Word} (h : NextIs img f .ret w) (hmem : InMemory img f (f.regs regSp))
    (hpc : f.heap.word (f.regs regSp).toNat ≠ retSentinel) :
    build.step img host f = .val () { f.setReg regSp (f.regs regSp + 4) with pc := f.heap.word (f.regs regSp).toNat } := by
  have hmem' : InMemory img { f with pc := f.pc + 1 } (f.regs regSp) := hmem
  have hcheck := hmem'.check
  rw [step_of_nextIs himg h (by decide)]
  simp only [Switch.cases, Exec.run_bind, run_reg, failIf, Exec.run_stopIf_of_not _ hcheck, run_load32 hmem', run_setReg, if_neg hpc, setPc,
    Exec.run_modify]
  rfl

end CallsAux

end CronoVM
