import CronoVM.Lemmas.StraightCode
import CronoVM.Translator.Emit

/-!
# What the emitted sequences do

The short sequences of the code generator as lists of words, and what running them does to a frame: they load constants, and load and
store words of the stack frame, through R254. `Emitted` joins a step of the code generator with the run of what it emitted.
-/

namespace CronoVM

open Checked Ir

variable {κ W : Type}

/-! ## Sequences -/

/-- The code with `ws` behind it. -/
def Cg.emit (cg : Cg) (ws : List Word) : Cg := { cg with code := cg.code ++ ws }

/-- The next register allocated. -/
def Cg.alloc (cg : Cg) : Cg := { cg with nextReg := cg.nextReg + 1 }

/-- The words of `cg_emit_load_const32`. -/
def loadConst32Words (rd : Byte) (imm : Word) : List Word :=
  if -32768 ≤ imm.toInt ∧ imm.toInt ≤ 32767 then [encI16 .movi rd (imm.setWidth 16)]
  else [encI16 .movi rd (imm.setWidth 16), encI16 .movhi rd ((imm >>> 16).setWidth 16)]

theorem length_loadConst32Words (rd : Byte) (imm : Word) : (loadConst32Words rd imm).length = 1 ∨ (loadConst32Words rd imm).length = 2 := by
  unfold loadConst32Words
  split
  · exact Or.inl rfl
  · exact Or.inr rfl

theorem length_loadConst32Words_le (rd : Byte) (imm : Word) : (loadConst32Words rd imm).length ≤ 2 := by
  rcases length_loadConst32Words rd imm with h | h <;> omega

/-- The words of `cg_addr_sp_plus`. -/
def addrSpPlusWords (offset : Word) : List Word := loadConst32Words cgRegScratch offset ++ [encR .add cgRegScratch regSp cgRegScratch]

/-- The words of `cg_stw_sp_off`. -/
def stwSpOffWords (offset : Word) (srcReg : Byte) : List Word := addrSpPlusWords offset ++ [encR .stw 0 cgRegScratch srcReg]

/-- The words of `cg_ldw_sp_off`. -/
def ldwSpOffWords (dstReg : Byte) (offset : Word) : List Word := addrSpPlusWords offset ++ [encR .ldw dstReg cgRegScratch 0]

section wp

variable {Q : Unit → Cg → Prop} {E : CgError → Cg → Prop} {cg : Cg}

@[simp] theorem Cg.emit_emit (ws us : List Word) : (cg.emit ws).emit us = cg.emit (ws ++ us) := by
  simp only [Cg.emit, List.append_assoc]

/-- Allocation does not look at the code. -/
@[simp] theorem Cg.alloc_emit (ws : List Word) : (cg.emit ws).alloc = cg.alloc.emit ws := rfl

@[simp] theorem wp_cgEmit (inst : Word) : Exec.wp (cgEmit inst) Q E cg ↔ Q () (cg.emit [inst]) := Iff.rfl

@[simp] theorem wp_cgEmitLoadConst32 (rd : Byte) (imm : Word) :
    Exec.wp (cgEmitLoadConst32 rd imm) Q E cg ↔ Q () (cg.emit (loadConst32Words rd imm)) := by
  unfold cgEmitLoadConst32 loadConst32Words
  split <;> simp

@[simp] theorem wp_cgAddrSpPlus (offset : Word) : Exec.wp (cgAddrSpPlus offset) Q E cg ↔ Q () (cg.emit (addrSpPlusWords offset)) := by
  simp [cgAddrSpPlus, cgMoviScratch, addrSpPlusWords]

@[simp] theorem wp_cgStwSpOff (offset : Word) (srcReg : Byte) :
    Exec.wp (cgStwSpOff offset srcReg) Q E cg ↔ Q () (cg.emit (stwSpOffWords offset srcReg)) := by
  simp [cgStwSpOff, stwSpOffWords]

@[simp] theorem wp_cgLdwSpOff (dstReg : Byte) (offset : Word) :
    Exec.wp (cgLdwSpOff dstReg offset) Q E cg ↔ Q () (cg.emit (ldwSpOffWords dstReg offset)) := by
  simp [cgLdwSpOff, ldwSpOffWords]

end wp

/-! ## Their runs -/

section runs

variable {img : Image κ} {host : Host κ W} {f : Frame κ W}

/-- A constant that fits 16 bits is its low half, extended. -/
theorem signExtend_setWidth {imm : Word} (h : -32768 ≤ imm.toInt ∧ imm.toInt ≤ 32767) : (imm.setWidth 16).signExtend 32 = imm := by
  apply BitVec.eq_of_toInt_eq
  rw [BitVec.toInt_signExtend_of_le (by decide), BitVec.toInt_setWidth]
  have hemod : imm.toInt = (imm.toNat : Int).bmod (2 ^ 32) := BitVec.toInt_eq_toNat_bmod imm
  have hlt := imm.isLt
  have hcases := BitVec.toInt_eq_toNat_cond imm
  simp only [Int.bmod]
  split at hcases <;> split <;> omega

/-- The other constants are their two halves. -/
theorem movhi_movi (imm : Word) :
    (((imm >>> 16).setWidth 16).setWidth 32 <<< 16 ||| (((imm.setWidth 16).signExtend 32) &&& 0xFFFF)) = imm := by
  apply BitVec.eq_of_getLsbD_eq
  intro i hi
  have hmask : (0xFFFF : Word).getLsbD i = decide (i < 16) := by
    rw [show (0xFFFF : Word) = BitVec.ofNat 32 (2 ^ 16 - 1) from rfl, BitVec.getLsbD_ofNat, Nat.testBit_two_pow_sub_one]
    grind
  simp only [BitVec.getLsbD_or, BitVec.getLsbD_and, BitVec.getLsbD_shiftLeft, BitVec.getLsbD_setWidth, BitVec.getLsbD_signExtend,
    BitVec.getLsbD_ushiftRight, hmask]
  grind

variable (hcode : img.code.length = img.codeCount.toNat) (host)
include hcode

theorem runs_loadConst32 (rd : Byte) (imm : Word) : RunsTo img host (loadConst32Words rd imm) f (f.setReg rd imm) := by
  unfold loadConst32Words
  split
  case isTrue h =>
    have hmovi := runs_movi (f := f) host hcode rd (imm.setWidth 16)
    rwa [signExtend_setWidth h] at hmovi
  case isFalse h =>
    have hmovi := runs_movi (f := f) host hcode rd (imm.setWidth 16)
    have hmovhi := runs_movhi (f := f.setReg rd ((imm.setWidth 16).signExtend 32)) host hcode rd ((imm >>> 16).setWidth 16)
    rw [Frame.setReg_same, movhi_movi, Frame.setReg_setReg] at hmovhi
    exact hmovi.append hcode hmovhi

/-- R254 gets the address `SP + offset`. -/
theorem runs_addrSpPlus (offset : Word) :
    RunsTo img host (addrSpPlusWords offset) f (f.setReg cgRegScratch (f.regs regSp + offset)) := by
  have hload := runs_loadConst32 (f := f) host hcode cgRegScratch offset
  have hadd := runs_add (f := f.setReg cgRegScratch offset) host hcode cgRegScratch regSp cgRegScratch
  rw [Frame.setReg_same, Frame.setReg_of_ne _ _ (by decide), Frame.setReg_setReg] at hadd
  exact hload.append hcode hadd

/-- A register is stored in the frame. -/
theorem runs_stwSpOff {offset : Word} {srcReg : Byte} (hsrc : srcReg ≠ cgRegScratch) (h : InMemory img f (f.regs regSp + offset)) :
    RunsTo img host (stwSpOffWords offset srcReg) f
      ((f.setReg cgRegScratch (f.regs regSp + offset)).setWord (f.regs regSp + offset).toNat (f.regs srcReg)) := by
  have haddr := runs_addrSpPlus (f := f) host hcode offset
  have hstw := runs_stw (f := f.setReg cgRegScratch (f.regs regSp + offset)) host hcode 0 cgRegScratch srcReg
    (by rw [Frame.setReg_same]; exact h)
  rw [Frame.setReg_same, Frame.setReg_of_ne _ _ hsrc] at hstw
  exact haddr.append hcode hstw

/-- A word of the frame is loaded. -/
theorem runs_ldwSpOff (dstReg : Byte) {offset : Word} (h : InMemory img f (f.regs regSp + offset)) :
    RunsTo img host (ldwSpOffWords dstReg offset) f
      ((f.setReg cgRegScratch (f.regs regSp + offset)).setReg dstReg (f.heap.word (f.regs regSp + offset).toNat)) := by
  have haddr := runs_addrSpPlus (f := f) host hcode offset
  have hldw := runs_ldw (f := f.setReg cgRegScratch (f.regs regSp + offset)) host hcode dstReg cgRegScratch 0
    (by rw [Frame.setReg_same]; exact h)
  rw [Frame.setReg_same, Frame.setReg_heap] at hldw
  exact haddr.append hcode hldw

end runs

end CronoVM
