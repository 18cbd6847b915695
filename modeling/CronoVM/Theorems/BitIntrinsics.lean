import CronoVM.Lemmas.BitReversal
import CronoVM.Lemmas.LeadingZeros64
import CronoVM.Theorems.FunnelShifts

/-!
# Intrinsics on bits

Counts and reversals of bits against the operations on bit vectors of the operand's width. The loops end: at most 200 steps follow the load
of the operand, and 300 that of two words.
-/

namespace CronoVM

open Checked Ir NarrowInt BitCount

variable {κ W : Type}

/-- What the intrinsic is at width `w`. -/
def BitIntrinsic.eval {w : Nat} (op : BitIntrinsic) (x : BitVec w) : BitVec w :=
  match op with
  | .ctlz => x.clz
  | .ctpop => x.cpop
  | .cttz => x.ctz
  | .bswap => byteSwap x
  | .bitreverse => x.reverse

namespace BitIntrinsicsAux

/-- A number of `w` bits goes through a word and back. -/
theorem setWidth_ofNat_toNat {w : Nat} (hw : w ≤ 32) (y : BitVec w) : (BitVec.ofNat 32 y.toNat).setWidth w = y := by
  apply BitVec.eq_of_toNat_eq
  have hlt := y.isLt
  have hle : 2 ^ w ≤ 2 ^ 32 := Nat.pow_le_pow_right (by decide) hw
  rw [BitVec.toNat_setWidth, BitVec.toNat_ofNat, Nat.mod_eq_of_lt (Nat.lt_of_lt_of_le hlt hle), Nat.mod_eq_of_lt hlt]

/-- The widths of the intrinsics are powers of two. -/
theorem isPow {w : Nat} (h : w = 8 ∨ w = 16 ∨ w = 32) : ∃ j, j ≤ 5 ∧ w = 2 ^ j := by
  rcases h with rfl | rfl | rfl
  · exact ⟨3, by decide, rfl⟩
  · exact ⟨4, by decide, rfl⟩
  · exact ⟨5, by decide, rfl⟩

variable {img : Image κ} (host : Host κ W) {cg : Cg} {f : Frame κ W} {src dst : Byte}

/-- The code behind the load of the operand. -/
theorem wp_cgBitBody (hcode : img.code.length = img.codeCount.toNat) (hok : cg.Ok) (hzero : f.regs cgRegZero = 0)
    (hsrc : Held src cg.nextReg) (hdst : dst.toNat < cg.nextReg) {op : BitIntrinsic} {w : Nat} (hw : op.hasWidth w = true) :
    Exec.wp (cgBitBody op w src dst) (fun _ cg' => ∃ v, v.setWidth w = op.eval ((f.regs src).setWidth w) ∧
      DefinesIn img host 200 cg f dst v cg') (fun e _ => e.OfOperand) cg := by
  cases op with
  | ctlz =>
    obtain rfl : w = 32 := of_decide_eq_true hw
    refine Exec.wp_mono (fun _ cg' hdef => ⟨_, ?_, hdef⟩) (fun _ _ he => he) (wp_cgCtlz32 host hcode hok hzero hsrc)
    have hclz : 32 - (f.regs src).toNat.size = (f.regs src).clz.toNat := Nat.sub_eq_of_eq_add (TwoWord.toNat_clz (f.regs src)).symm
    rw [hclz, setWidth_ofNat_toNat (Nat.le_refl 32), BitVec.setWidth_eq]
    rfl
  | ctpop =>
    have hle : w ≤ 32 := by rcases of_decide_eq_true hw with rfl | rfl | rfl <;> decide
    refine Exec.wp_mono (fun _ cg' hdef => ⟨_, ?_, hdef⟩) (fun _ _ he => he) (wp_cgCtpop host hcode hok hzero hsrc hle)
    exact setWidth_ofNat_toNat hle _
  | cttz =>
    have hle : w ≤ 32 := by rcases of_decide_eq_true hw with rfl | rfl | rfl <;> decide
    refine Exec.wp_mono (fun _ cg' hdef => ⟨_, ?_, hdef⟩) (fun _ _ he => he) (wp_cgCttz host hcode hok hzero hsrc hle)
    exact setWidth_ofNat_toNat hle _
  | bswap =>
    rcases of_decide_eq_true hw with rfl | rfl
    · refine Exec.wp_mono (fun _ cg' hdef => ⟨_, ?_, hdef⟩) (fun _ _ he => he) (wp_cgBswap16 host hcode hok hsrc)
      exact setWidth_bswap16 _
    · refine Exec.wp_mono (fun _ cg' hdef => ⟨_, ?_, hdef⟩) (fun _ _ he => he) (wp_cgBswap32 host hcode hok hsrc hdst)
      rw [BitVec.setWidth_eq, BitVec.setWidth_eq]
      exact bswap32_eq _
  | bitreverse =>
    obtain ⟨j, hj, rfl⟩ := isPow (of_decide_eq_true hw)
    refine Exec.wp_mono (fun _ cg' hdef => ⟨_, ?_, hdef⟩) (fun _ _ he => he) (wp_cgBitreverse host hcode hok hsrc hj)
    exact setWidth_swapNetwork hj (Nat.le_of_lt j.lt_two_pow_self) _

end BitIntrinsicsAux

/-- A word in R0 and a value of two words in slots, with results in R1 and in slots. -/
def bitsCg : Cg where
  code := []
  map := [(.arg 0, { reg := 0 }), (.arg 1, { reg := 0, i64Slot := some 0 }), (.inst 1, { reg := 1 }), (.inst 2, { reg := 0, i64Slot := some 2 })]
  nextReg := 2
  freeList := []
  zeroReg := cgRegZero
  allocaBytes := 0
  spillBytes := 0
  valSpillCount := 4
  frameBytes := 16
  ssaRegHigh := 2
  globals := []
  funcs := []

theorem bitsCg_ok : bitsCg.Ok := .of_map rfl rfl (by decide) (by decide) (by decide) (by decide)

/-- R0 has bits above a byte; the two words are 1 and 0. -/
def bitsFrame : Frame Unit Unit where
  regs r := if r = 0 then 0x1FF else 0
  heap := { size := 64, byte := fun p => if p = 0 then 1 else 0 }
  importFns := []
  world := ()
  pc := 0

/-- The code generator after `m`. -/
def bitsDone (m : Emit Unit) : Cg :=
  match m bitsCg with
  | .val _ cg => cg
  | _ => bitsCg

/-- `llvm.ctlz.i64` -/
def bitsInst : Inst where
  id := 2
  op := .call
  ty := .int 64
  operands := [.loc (.arg 1)]

end CronoVM
