import CronoVM.Lemmas.StraightCode

/-!
# Jumps

What the machine does at a branch: the rules of `BNE`, `BEQ` and `JMP`, with displacements as integers.
-/

namespace CronoVM

open Checked Vm

variable {κ W : Type} {img : Image κ} {host : Host κ W} {f : Frame κ W}

/-! ## Displacements -/

/-- The pc after a displacement, counted from the next instruction. -/
theorem pc_add_rel {p t : Nat} {rel : Int} (h : (t : Int) = p + 1 + rel) :
    BitVec.ofNat 32 p + 1 + BitVec.ofInt 32 rel = BitVec.ofNat 32 t := by
  have hone : (1 : Word) = BitVec.ofInt 32 1 := rfl
  rw [← BitVec.ofInt_natCast, hone, ← BitVec.ofInt_add, ← BitVec.ofInt_add, ← h, BitVec.ofInt_natCast]

theorem signExtend_rel8 {rel : Int} (hlo : -128 ≤ rel) (hhi : rel ≤ 127) : (BitVec.ofInt 8 rel).signExtend 32 = BitVec.ofInt 32 rel := by
  apply BitVec.eq_of_toInt_eq
  rw [BitVec.toInt_signExtend_of_le (by decide), BitVec.toInt_ofInt, BitVec.toInt_ofInt, Int.bmod_eq_of_le (by omega) (by omega),
    Int.bmod_eq_of_le (by omega) (by omega)]

/-- The sign of a 24-bit field. -/
theorem and_signBit24 {off : Word} (h : off.toNat < 2 ^ 24) : off &&& 0x800000 ≠ 0 ↔ 2 ^ 23 ≤ off.toNat := by
  have hbit : off.getLsbD 23 = decide (2 ^ 23 ≤ off.toNat) := by
    rw [BitVec.getLsbD, Nat.testBit_eq_decide_div_mod_eq]
    have hdiv : off.toNat / 2 ^ 23 < 2 := Nat.div_lt_of_lt_mul (by omega)
    by_cases hle : 2 ^ 23 ≤ off.toNat
    · have hpos : 0 < off.toNat / 2 ^ 23 := Nat.div_pos hle (by decide)
      rw [decide_eq_true hle, decide_eq_true_eq]
      omega
    · rw [Nat.div_eq_of_lt (by omega), decide_eq_false hle]
      rfl
  have hmask : (0x800000 : Word) = BitVec.twoPow 32 23 := rfl
  have hand : off &&& 0x800000 = if off.getLsbD 23 = true then BitVec.twoPow 32 23 else 0 := by
    rw [hmask, BitVec.and_twoPow]
    rfl
  rw [hand, hbit]
  have hne : BitVec.twoPow 32 23 ≠ 0 := by decide
  by_cases hle : 2 ^ 23 ≤ off.toNat
  · simp only [hle, decide_true, if_true, ne_eq, hne, not_false_eq_true]
  · rw [decide_eq_false hle, if_neg Bool.false_ne_true]
    exact ⟨fun h => absurd rfl h, fun h => absurd h hle⟩

theorem signed_rel24 {rel : Int} (hlo : -8388608 ≤ rel) (hhi : rel ≤ 8388607) :
    (if (BitVec.ofInt 32 rel &&& 0xFFFFFF) &&& 0x800000 ≠ 0 then (BitVec.ofInt 32 rel &&& 0xFFFFFF) - 0x1000000
      else BitVec.ofInt 32 rel &&& 0xFFFFFF) = BitVec.ofInt 32 rel := by
  have hmask : (BitVec.ofInt 32 rel &&& 0xFFFFFF).toNat = (BitVec.ofInt 32 rel).toNat % 2 ^ 24 := by
    rw [BitVec.toNat_and, ← Nat.and_two_pow_sub_one_eq_mod]
    rfl
  have hnat : ((BitVec.ofInt 32 rel).toNat : Int) = rel % 2 ^ 32 := by
    rw [BitVec.toNat_ofInt]
    omega
  have hlt : (BitVec.ofInt 32 rel &&& 0xFFFFFF).toNat < 2 ^ 24 := by omega
  by_cases hneg : rel < 0
  · rw [if_pos ((and_signBit24 hlt).mpr (by omega))]
    apply BitVec.eq_of_toNat_eq
    rw [BitVec.toNat_sub, hmask]
    have h24 : (0x1000000 : Word).toNat = 2 ^ 24 := rfl
    rw [h24]
    omega
  · rw [if_neg (fun h => by have := (and_signBit24 hlt).mp h; omega)]
    apply BitVec.eq_of_toNat_eq
    rw [hmask]
    omega

/-! ## Steps -/

section steps

variable (hcode : img.code.length = img.codeCount.toNat)
include hcode

/-- The instruction at the pc is fetched and handled. -/
theorem step_fetch {pc : Nat} {w : Word} {l : Threaded.Label} (hat : img.code[pc]? = some w) (hjt : Threaded.jt (instOp w) = some l) :
    Threaded.step img host { f with pc := BitVec.ofNat 32 pc } =
      Threaded.handler img host w (instA w) (instB w) (instC w) l { f with pc := BitVec.ofNat 32 pc + 1 } := by
  obtain ⟨hlt, hw⟩ := List.getElem?_eq_some_iff.mp hat
  have hcount := img.codeCount.isLt
  have hnat : (BitVec.ofNat 32 pc).toNat = pc := by
    rw [BitVec.toNat_ofNat, Nat.mod_eq_of_lt (by omega)]
  have hpc : ¬BitVec.ofNat 32 pc ≥ img.codeCount := by
    simp only [ge_iff_le, BitVec.le_def, hnat]
    omega
  have hfail : (failIf (BitVec.ofNat 32 pc ≥ img.codeCount) .badPc : Vm κ W Unit) { f with pc := BitVec.ofNat 32 pc } =
      .val () { f with pc := BitVec.ofNat 32 pc } := if_neg hpc
  have hcodeAt : (codeAt img (BitVec.ofNat 32 pc) : Vm κ W Word) { f with pc := BitVec.ofNat 32 pc } =
      .val w { f with pc := BitVec.ofNat 32 pc } := by
    have hget : img.code.getD (BitVec.ofNat 32 pc).toNat 0 = w := by
      rw [hnat, List.getD_eq_getElem?_getD, hat, Option.getD_some]
    simp only [codeAt, Exec.run_bind, Exec.run_demand_of _ (show (BitVec.ofNat 32 pc).toNat < img.code.length by rw [hnat]; exact hlt),
      Exec.run_pure, hget]
  simp only [Threaded.step, Exec.run_bind, getPc, Exec.run_get, Exec.run_pure, hfail, hcodeAt, setPc, Exec.run_modify, hjt]

/-- `BNE`. -/
theorem step_bne {pc target : Nat} {a b : Byte} {rel : Int} (hat : img.code[pc]? = some (encBr .bne a b (BitVec.ofInt 8 rel)))
    (hlo : -128 ≤ rel) (hhi : rel ≤ 127) (htarget : (target : Int) = pc + 1 + rel) :
    Threaded.step img host { f with pc := BitVec.ofNat 32 pc } =
      .val () { f with pc := BitVec.ofNat 32 (if f.regs a ≠ f.regs b then target else pc + 1) } := by
  rw [step_fetch hcode hat (l := .lBne) (by rw [encBr_eq_encR, instOp_encR]; rfl)]
  simp only [encBr_eq_encR, instA_encR, instB_encR, instC_encR, Threaded.handler, Exec.run_bind, run_reg]
  by_cases hne : f.regs a ≠ f.regs b
  · simp only [hne, ne_eq, not_false_eq_true, if_true, Exec.run_bind, getPc, Exec.run_get, Exec.run_pure, setPc, Exec.run_modify,
      signExtend_rel8 hlo hhi, pc_add_rel htarget]
  · simp only [hne, if_false, Exec.run_pure]
    rw [BitVec.ofNat_add]
    rfl

/-- `BEQ`. -/
theorem step_beq {pc target : Nat} {a b : Byte} {rel : Int} (hat : img.code[pc]? = some (encBr .beq a b (BitVec.ofInt 8 rel)))
    (hlo : -128 ≤ rel) (hhi : rel ≤ 127) (htarget : (target : Int) = pc + 1 + rel) :
    Threaded.step img host { f with pc := BitVec.ofNat 32 pc } =
      .val () { f with pc := BitVec.ofNat 32 (if f.regs a = f.regs b then target else pc + 1) } := by
  rw [step_fetch hcode hat (l := .lBeq) (by rw [encBr_eq_encR, instOp_encR]; rfl)]
  simp only [encBr_eq_encR, instA_encR, instB_encR, instC_encR, Threaded.handler, Exec.run_bind, run_reg]
  by_cases heq : f.regs a = f.regs b
  · simp only [heq, if_true, Exec.run_bind, getPc, Exec.run_get, Exec.run_pure, setPc, Exec.run_modify, signExtend_rel8 hlo hhi,
      pc_add_rel htarget]
  · simp only [heq, if_false, Exec.run_pure]
    rw [BitVec.ofNat_add]
    rfl

/-- `JMP`. -/
theorem step_jmp {pc target : Nat} {rel : Int} (hat : img.code[pc]? = some (encI24 .jmp (BitVec.ofInt 32 rel)))
    (hlo : -8388608 ≤ rel) (hhi : rel ≤ 8388607) (htarget : (target : Int) = pc + 1 + rel) :
    Threaded.step img host { f with pc := BitVec.ofNat 32 pc } = .val () { f with pc := BitVec.ofNat 32 target } := by
  rw [step_fetch hcode hat (l := .lJmp) (by rw [instOp_encI24]; rfl)]
  have hrel := signed_rel24 hlo hhi
  simp only [Threaded.handler, instImm24_encI24, hrel, Exec.run_bind, getPc, Exec.run_get, Exec.run_pure, setPc, Exec.run_modify,
    pc_add_rel htarget]

/-- `JMPR`. -/
theorem step_jmpr {pc : Nat} {a : Byte} (hat : img.code[pc]? = some (encR .jmpr a 0 0)) (hlt : f.regs a < img.codeCount) :
    Threaded.step img host { f with pc := BitVec.ofNat 32 pc } = .val () { f with pc := f.regs a } := by
  rw [step_fetch hcode hat (l := .lJmpr) (by rw [instOp_encR]; rfl)]
  have hin : ¬f.regs a ≥ img.codeCount := by
    simp only [ge_iff_le, BitVec.not_le]
    exact hlt
  simp only [instA_encR, Threaded.handler, Exec.run_bind, run_reg, failIf, Exec.run_stopIf_of_not _ hin, setPc, Exec.run_modify]

end steps

end CronoVM
