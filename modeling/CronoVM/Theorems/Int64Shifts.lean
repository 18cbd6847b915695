import CronoVM.Lemmas.Int64
import CronoVM.Lemmas.Wide64
import CronoVM.Theorems.Safety

/-!
# The two implementations of 64-bit shifts

A shift by a constant is emitted in line, a shift by a variable amount is a call of the runtime. Both are the shift of the 64-bit number,
and so is each funnel shift that of the 128-bit one.
-/

namespace CronoVM

open Checked Ir NarrowInt TwoWord CvmI64

variable {κ W : Type}

/-- The helper of the runtime for a shift. -/
def runtimeShift : IntBinOp → CvmI64 → CvmI64 → CvmI64
  | .shl => cvmShl64
  | .lshr => cvmShr64
  | _ => cvmSar64

/-- The shift of a 64-bit number. -/
def shiftBits : IntBinOp → BitVec 64 → Nat → BitVec 64
  | .shl, x, n => x <<< n
  | .lshr, x, n => x >>> n
  | _, x, n => x.sshiftRight n

namespace ShiftsAux

/-! ## The runtime -/

/-- A shift of the runtime is one of 64 bits by the amount modulo 64. -/
theorem bits_runtimeShift {op : IntBinOp} (x n : CvmI64) (hop : op.isShift = true) :
    (runtimeShift op x n).bits = shiftBits op x.bits (n.lo.toNat % 64) := by
  cases op with
  | shl => exact bits_shl x n.lo
  | lshr => exact bits_shr x n.lo
  | ashr => exact bits_sar x n.lo
  | add | sub | mul | udiv | sdiv | urem | srem | and | or | xor => nomatch hop

/-- The words are combined one by one. -/
theorem bits_or (x y : CvmI64) : (cvmI64FromParts (x.lo ||| y.lo) (x.hi ||| y.hi)).bits = x.bits ||| y.bits := by
  have hor : (x.hi ++ x.lo) ||| (y.hi ++ y.lo) = (x.hi ||| y.hi) ++ (x.lo ||| y.lo) := BitVec.or_append
  exact hor.symm

/-- The amounts of the two halves of a funnel shift. -/
theorem funnel_amounts {s : Word} (hlt : s.toNat < 64) (hne : s ≠ 0#32) : s.toNat % 64 = s.toNat ∧ (64#32 - s).toNat % 64 = 64 - s.toNat := by
  have h64 : (64#32).toNat = 64 := rfl
  have hpos : s.toNat ≠ 0 := fun h => hne (BitVec.eq_of_toNat_eq h)
  have hsub : (64#32 - s).toNat = 64 - s.toNat := BitVec.toNat_sub_of_le (BitVec.le_def.mpr (Nat.le_of_lt hlt))
  omega

/-- A funnel shift to the left gives the upper half of both operands shifted. -/
theorem bits_fshl (a b c : CvmI64) : (cvmFshl64 a b c).bits = high ((a.bits ++ b.bits) <<< (c.lo.toNat % 64)) := by
  have hlt : (c.lo &&& 63#32).toNat < 64 := by
    rw [toNat_and_63]
    exact Nat.mod_lt _ (by decide)
  rw [← toNat_and_63, shiftLeft_append_of_lt _ _ hlt, high_append]
  unfold cvmFshl64
  generalize c.lo &&& 63#32 = s at hlt ⊢
  by_cases hzero : s = 0#32
  · subst hzero
    have hnone : b.bits >>> (64 - (0#32).toNat) = 0#64 := BitVec.ushiftRight_eq_zero (Nat.le_refl 64)
    rw [hnone, BitVec.or_zero]
    exact (BitVec.shiftLeft_zero _).symm
  · obtain ⟨hleft, hright⟩ := funnel_amounts hlt hzero
    dsimp only
    rw [if_neg hzero, bits_or, bits_shl, bits_shr, hleft, hright]

/-- One to the right gives the lower half. -/
theorem bits_fshr (a b c : CvmI64) : (cvmFshr64 a b c).bits = low ((a.bits ++ b.bits) >>> (c.lo.toNat % 64)) := by
  have hlt : (c.lo &&& 63#32).toNat < 64 := by
    rw [toNat_and_63]
    exact Nat.mod_lt _ (by decide)
  rw [← toNat_and_63, ushiftRight_append_of_lt _ _ hlt, low_append]
  unfold cvmFshr64
  generalize c.lo &&& 63#32 = s at hlt ⊢
  by_cases hzero : s = 0#32
  · subst hzero
    have hnone : a.bits <<< (64 - (0#32).toNat) = 0#64 := BitVec.shiftLeft_eq_zero (Nat.le_refl 64)
    rw [hnone, BitVec.or_zero]
    exact (BitVec.ushiftRight_zero _).symm
  · obtain ⟨hright, hleft⟩ := funnel_amounts hlt hzero
    dsimp only
    rw [if_neg hzero, bits_or, bits_shl, bits_shr, hleft, hright, BitVec.or_comm]

/-! ## The emitted sequence -/

variable {img : Image κ} (host : Host κ W) {cg : Cg} {f : Frame κ W}

/-- A shift in the meaning of the instruction. -/
theorem eval_shift {op : IntBinOp} (hop : op.isShift = true) (x : BitVec 64) {n : Nat} (hn : n < 64) :
    op.eval x (BitVec.ofNat 64 n) = some (shiftBits op x n) := by
  have hnat : (BitVec.ofNat 64 n).toNat = n := by
    rw [BitVec.toNat_ofNat]
    exact Nat.mod_eq_of_lt (by omega)
  have hlt : (BitVec.ofNat 64 n).toNat < 64 := by omega
  cases op with
  | shl => exact (if_pos hlt).trans (congrArg some (by rw [hnat]; rfl))
  | lshr => exact (if_pos hlt).trans (congrArg some (by rw [hnat]; rfl))
  | ashr => exact (if_pos hlt).trans (congrArg some (by rw [hnat]; rfl))
  | add | sub | mul | udiv | sdiv | urem | srem | and | or | xor => nomatch hop

/-- The instructions that are shifts. -/
theorem shift_op {o : Op} {op : IntBinOp} (h : o.intBinOp? = some op) (hop : op.isShift = true) : o = .shl ∨ o = .lshr ∨ o = .ashr := by
  cases o with
  | shl => exact Or.inl rfl
  | lshr => exact Or.inr (Or.inl rfl)
  | ashr => exact Or.inr (Or.inr rfl)
  | add | sub | mul | udiv | sdiv | urem | srem | and | or | xor =>
    cases h
    nomatch hop
  | _ => nomatch h

/-- The code of a shift by a constant leaves the shifted number in the slots of the result. -/
theorem wp_shift (hcode : img.code.length = img.codeCount.toNat) (hok : cg.Ok) (hin : InFrame cg img f) (hzero : f.regs cgRegZero = 0)
    {fn : Func} {i : Inst} {op : IntBinOp} (hiop : i.op.intBinOp? = some op) (hop : op.isShift = true) (hty : i.ty = .int 64) {slot : Nat}
    (hslot : (cg.lookup (.loc i.result)).bind Home.i64Slot = some slot) {width k : Nat} (hamount : i.operand 1 = .const (.int width k)) :
    Exec.wp (cgEmitI64Def fn i)
      (fun _ => Leaves img host cg f (f.setWide (slotAddr cg f slot) (shiftBits op (wideVal cg f (i.operand 0)) (k % 2 ^ width % 64))))
      (fun e _ => e.OfOperand) cg := by
  have hroom : slot + 1 < cg.valSpillCount := by
    obtain ⟨home, hhome, hi64⟩ := Option.bind_eq_some_iff.mp hslot
    exact hok.wide_lt _ home slot hhome hi64
  have hn : k % 2 ^ width % 64 < 64 := Nat.mod_lt _ (by decide)
  have hbody : Exec.wp (cgBinary64 op i slot)
      (fun _ => Leaves img host cg f (f.setWide (slotAddr cg f slot) (shiftBits op (wideVal cg f (i.operand 0)) (k % 2 ^ width % 64))))
      (fun e _ => e.OfOperand) cg := by
    have hall : cgBinary64 op i slot = (do
        let a ← cgI64Read (i.operand 0)
        let out ← cgShift64 op (k % 2 ^ width % 64) a.1 a.2
        cgI64Write slot out.1 out.2) := by
      cases op with
      | shl | lshr | ashr => simp only [cgBinary64, hamount]
      | add | sub | mul | udiv | sdiv | urem | srem | and | or | xor => nomatch hop
    rw [hall]
    refine wp_wide (wp_cgI64Read host hcode hok hin (i.operand 0)) fun a cg₁ f₁ hprep₁ ha => ?_
    have hzero₁ : f₁.regs cgRegZero = 0 := (hprep₁.regs (Or.inr rfl)).trans hzero
    have hy : (BitVec.ofNat 64 (k % 2 ^ width % 64)).toNat = k % 2 ^ width % 64 := by
      rw [BitVec.toNat_ofNat]
      exact Nat.mod_eq_of_lt (Nat.lt_trans hn (by decide))
    refine wp_wide (wp_cgShift64 host hcode (hprep₁.ok hok) hzero₁ op hop hn hy ha (eval_shift hop _ hn)) fun r cg₂ f₂ hprep₂ hr => ?_
    exact wp_writeResult host hcode hok hin (hprep₁.trans hcode hprep₂) hroom hr
  simp only [cgEmitI64Def, Exec.wp_bind, Exec.wp_get, hslot, Exec.wp_stopIf, hty]
  refine ⟨fun hodd => absurd rfl hodd.1, fun _ => ?_⟩
  rcases shift_op hiop hop with hi | hi | hi
  all_goals
    rw [hi] at hiop
    simp only [hi, hiop]
    exact hbody

end ShiftsAux

open ShiftsAux

/-- `x << 40`. -/
def shiftInst : Inst where
  id := 1
  op := .shl
  ty := .int 64
  operands := [.loc (.arg 0), .const (.int 64 40)]

def shiftFn : Func where
  name := "shift"
  params := [.int 64]
  vararg := false
  blocks := [{ id := 0, insts := [shiftInst] }]

/-- The argument is in the slots 0 and 1, the result in 2 and 3. -/
def shiftCg : Cg where
  code := []
  map := [(.arg 0, { reg := 0, i64Slot := some 0 }), (.inst 1, { reg := 0, i64Slot := some 2 })]
  nextReg := 8
  freeList := []
  zeroReg := cgRegZero
  allocaBytes := 0
  spillBytes := 0
  valSpillCount := 4
  frameBytes := 16
  ssaRegHigh := 8
  globals := []
  funcs := []

/-- The code of the shift. -/
def shiftCode : List Word :=
  match cgEmitI64Def shiftFn shiftInst shiftCg with
  | .val _ cg => cg.code
  | _ => []

def shiftImage : Image Unit := { codeImage shiftCode with heap := { size := 64, byte := fun k => BitVec.ofNat 8 (k + 0xA1) } }

/-- SP is 0. -/
def shiftFrame : Frame Unit Unit where
  regs _ := 0
  heap := shiftImage.heap
  importFns := []
  world := ()
  pc := 0

/-- The argument. -/
def shiftArg : CvmI64 := ⟨0xA4A3A2A1, 0xA8A7A6A5⟩

end CronoVM
