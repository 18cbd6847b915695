import CronoVM.Lemmas.Intrinsics
import CronoVM.Theorems.Safety

/-!
# Minimum, maximum, saturation and comparison

The intrinsics on narrow integers against their meaning on the low bits of the operands. Minimum, maximum and the comparison extend their
operands first. The saturating sum and difference do not: they are right as long as the upper bits leave their one comparison as it is.
-/

namespace CronoVM

open Checked Ir NarrowInt

variable {κ W : Type}

namespace NarrowIntrinsic

/-- An integer in the range of `w` bits with a sign, or the end of the range it is beyond. -/
def clamp (w : Nat) (n : Int) : BitVec w := BitVec.ofInt w (max (-2 ^ (w - 1)) (min n (2 ^ (w - 1) - 1)))

/-- The meaning of the intrinsic; the result of a comparison has a width of its own. -/
def eval (op : NarrowIntrinsic) (r : Nat) {w : Nat} (x y : BitVec w) : BitVec r :=
  match op with
  | .smax => (if x.slt y = true then y else x).setWidth r
  | .smin => (if x.slt y = true then x else y).setWidth r
  | .umax => (if x.ult y = true then y else x).setWidth r
  | .umin => (if x.ult y = true then x else y).setWidth r
  | .uaddSat => (if x.toNat + y.toNat < 2 ^ w then x + y else BitVec.allOnes w).setWidth r
  | .usubSat => (if y.toNat ≤ x.toNat then x - y else 0#w).setWidth r
  | .saddSat => (clamp w (x.toInt + y.toInt)).setWidth r
  | .ssubSat => (clamp w (x.toInt - y.toInt)).setWidth r
  | .scmp => if x.slt y = true then -1#r else if y.slt x = true then 1#r else 0#r
  | .ucmp => if x.ult y = true then -1#r else if y.ult x = true then 1#r else 0#r

/-- The intrinsic compares. -/
def isCompare : NarrowIntrinsic → Bool
  | .scmp | .ucmp => true
  | _ => false

/-- The intrinsic saturates at the ends of a signed range. -/
def isSignedSat : NarrowIntrinsic → Bool
  | .saddSat | .ssubSat => true
  | _ => false

/-- The upper bits of the operands do not change how the code compares: the operands of a difference as their low bits, a sum with the
limit of the width as the sum of the low bits. -/
def UpperBitsAgree (op : NarrowIntrinsic) (w : Nat) (x y : Word) : Prop :=
  match op with
  | .usubSat => (x < y → (x.setWidth w).toNat ≤ (y.setWidth w).toNat) ∧ (y ≤ x → (y.setWidth w).toNat ≤ (x.setWidth w).toNat)
  | .uaddSat => w = 32 ∨ ((2 ^ w ≤ (x + y).toNat → 2 ^ w - 1 ≤ (x.setWidth w).toNat + (y.setWidth w).toNat) ∧
      ((x + y).toNat < 2 ^ w → (x.setWidth w).toNat + (y.setWidth w).toNat < 2 ^ w))
  | _ => True

instance (op : NarrowIntrinsic) (w : Nat) (x y : Word) : Decidable (op.UpperBitsAgree w x y) :=
  match op with
  | .usubSat => inferInstanceAs (Decidable (_ ∧ _))
  | .uaddSat => inferInstanceAs (Decidable (_ ∨ _))
  | .smax | .smin | .umax | .umin | .saddSat | .ssubSat | .scmp | .ucmp => inferInstanceAs (Decidable True)

end NarrowIntrinsic

namespace NarrowIntrinsicsAux

variable {w : Nat}

/-- Extended operands compare as their low bits. -/
theorem lessThan_extendLow (isSigned : Bool) (hw : w ≤ 32) (x y : Word) :
    lessThan isSigned (extendLow isSigned w x) (extendLow isSigned w y) = lessThan isSigned (x.setWidth w) (y.setWidth w) := by
  cases isSigned with
  | true => exact slt_signExtend hw _ _
  | false => exact ult_setWidth hw _ _

/-- The low bits are those of the smaller or the larger operand. -/
theorem setWidth_minMaxWord (isMin isSigned : Bool) (hw : w ≤ 32) (x y : Word) : (minMaxWord isMin isSigned w x y).setWidth w =
    if lessThan isSigned (x.setWidth w) (y.setWidth w) = true then (if isMin = true then x.setWidth w else y.setWidth w)
    else (if isMin = true then y.setWidth w else x.setWidth w) := by
  rw [minMaxWord, lessThan_extendLow isSigned hw]
  cases lessThan isSigned (x.setWidth w) (y.setWidth w) <;> cases isMin <;> rfl

/-- No two numbers are each below the other. -/
theorem lessThan_asymm {isSigned : Bool} {x y : BitVec w} (h : lessThan isSigned x y = true) : lessThan isSigned y x = false := by
  cases isSigned with
  | true =>
    have hlt : x.toInt < y.toInt := BitVec.slt_iff_toInt_lt.mp h
    exact decide_eq_false (by omega)
  | false =>
    have hlt : x.toNat < y.toNat := of_decide_eq_true h
    exact decide_eq_false (by omega)

/-- The low bits are the answer of a three-way comparison. -/
theorem setWidth_compare3Word (isSigned : Bool) (hw : w ≤ 32) {r : Nat} (hr : r ≤ 32) (x y : Word) :
    (compare3Word isSigned w x y).setWidth r = if lessThan isSigned (x.setWidth w) (y.setWidth w) = true then -1#r
      else if lessThan isSigned (y.setWidth w) (x.setWidth w) = true then 1#r else 0#r := by
  have hone : (boolWord true).setWidth r = 1#r := BitVec.setWidth_ofNat_of_le hr 1
  have hzero : (boolWord false).setWidth r = 0#r := BitVec.setWidth_ofNat_of_le hr 0
  rw [compare3Word, lessThan_extendLow isSigned hw, lessThan_extendLow isSigned hw, setWidth_sub hr]
  cases hlt : lessThan isSigned (x.setWidth w) (y.setWidth w) with
  | true =>
    rw [lessThan_asymm hlt, hone, hzero, if_pos rfl]
    exact BitVec.zero_sub _
  | false =>
    cases lessThan isSigned (y.setWidth w) (x.setWidth w) with
    | true =>
      rw [hone, hzero, if_neg Bool.false_ne_true, if_pos rfl]
      exact BitVec.sub_zero _
    | false =>
      rw [hzero, if_neg Bool.false_ne_true, if_neg Bool.false_ne_true]
      exact BitVec.sub_zero _

/-- A difference is 0 where the numbers are one. -/
theorem sub_eq_zero_iff {a b : BitVec w} : a - b = 0#w ↔ a.toNat = b.toNat := by
  rw [BitVec.sub_eq_iff_eq_add, BitVec.zero_add, BitVec.toNat_inj]

/-- A saturating subtraction is right exactly where the upper bits do not disturb it. -/
theorem setWidth_usubSat_iff (hw : w ≤ 32) (x y : Word) : (saturateWord true w x y).setWidth w =
    (if (y.setWidth w).toNat ≤ (x.setWidth w).toNat then x.setWidth w - y.setWidth w else 0#w) ↔
      NarrowIntrinsic.usubSat.UpperBitsAgree w x y := by
  have hzero : (0 : Word).setWidth w = 0#w := BitVec.setWidth_ofNat_of_le hw 0
  simp only [saturateWord, if_true, NarrowIntrinsic.UpperBitsAgree]
  by_cases hlt : x < y
  · have hle : ¬y ≤ x := by
      rw [BitVec.not_le]
      exact hlt
    rw [if_pos hlt, hzero]
    simp only [hlt, hle, true_implies, false_implies, and_true]
    split
    case isTrue hba =>
      rw [eq_comm, sub_eq_zero_iff]
      omega
    case isFalse hba =>
      simp only [true_iff]
      omega
  · have hle : y ≤ x := by
      rw [← BitVec.not_lt]
      exact hlt
    rw [if_neg hlt, setWidth_sub hw]
    simp only [hlt, hle, true_implies, false_implies, true_and]
    split
    case isTrue hba => simp only [hba]
    case isFalse hba =>
      rw [sub_eq_zero_iff]
      omega

/-- The ones below bit `w` are all the ones of the low bits. -/
theorem setWidth_lowMask (hw : w ≤ 32) : (lowMask 32 w).setWidth w = BitVec.allOnes w := by
  apply BitVec.eq_of_toNat_eq
  have hlt : 2 ^ w - 1 < 2 ^ w := Nat.sub_one_lt_of_lt (Nat.two_pow_pos w)
  rw [lowMask, BitVec.setWidth_ofNat_of_le hw, BitVec.toNat_ofNat, BitVec.toNat_allOnes, Nat.mod_eq_of_lt hlt]

/-- Beyond the limit of the width. -/
theorem lowMask_lt_iff (hw : w < 32) (s : Word) : lowMask 32 w < s ↔ 2 ^ w ≤ s.toNat := by
  have hpos : 0 < 2 ^ w := Nat.two_pow_pos w
  have hpow : 2 ^ w < 2 ^ 32 := Nat.pow_lt_pow_right (by decide) hw
  rw [BitVec.lt_def, lowMask, BitVec.toNat_ofNat, Nat.mod_eq_of_lt (by omega)]
  omega

/-- A sum that does not fit and is all ones when it wraps is more than two numbers of the width make. -/
theorem add_eq_allOnes_iff (a b : BitVec w) : a + b = BitVec.allOnes w ↔ a.toNat + b.toNat = 2 ^ w - 1 := by
  have ha := a.isLt
  have hb := b.isLt
  rw [← BitVec.toNat_inj, BitVec.toNat_add, BitVec.toNat_allOnes]
  by_cases hfit : a.toNat + b.toNat < 2 ^ w
  · rw [Nat.mod_eq_of_lt hfit]
  · rw [Nat.mod_eq_sub_mod (by omega), Nat.mod_eq_of_lt (by omega)]
    omega

/-- So is a saturating addition. -/
theorem setWidth_uaddSat_iff (hw : w ≤ 32) (x y : Word) : (saturateWord false w x y).setWidth w =
    (if (x.setWidth w).toNat + (y.setWidth w).toNat < 2 ^ w then x.setWidth w + y.setWidth w else BitVec.allOnes w) ↔
      NarrowIntrinsic.uaddSat.UpperBitsAgree w x y := by
  have hsum : (x + y).setWidth w = x.setWidth w + y.setWidth w := BitVec.setWidth_add _ _ hw
  simp only [saturateWord, Bool.false_eq_true, if_false, NarrowIntrinsic.UpperBitsAgree]
  rcases Nat.lt_or_eq_of_le hw with hnarrow | rfl
  · have hne : w ≠ 32 := by omega
    rw [if_pos hnarrow]
    simp only [lowMask_lt_iff hnarrow, hne, false_or]
    by_cases hover : 2 ^ w ≤ (x + y).toNat
    · have hfits : ¬(x + y).toNat < 2 ^ w := by omega
      rw [if_pos hover, setWidth_lowMask hw]
      simp only [hover, hfits, true_implies, false_implies, and_true]
      split
      case isTrue hlow =>
        rw [eq_comm, add_eq_allOnes_iff]
        omega
      case isFalse hlow =>
        simp only [true_iff]
        omega
    · have hfits : (x + y).toNat < 2 ^ w := by omega
      rw [if_neg hover, hsum]
      simp only [hover, hfits, true_implies, false_implies, true_and]
      split
      case isTrue hlow => simp only [hlow]
      case isFalse hlow =>
        rw [add_eq_allOnes_iff]
        omega
  · rw [if_neg (by decide)]
    simp only [true_or, iff_true, BitVec.setWidth_eq]
    have hover : x + y < x ↔ ¬x.toNat + y.toNat < 2 ^ 32 := by
      rw [BitVec.lt_def, BitVec.toNat_add]
      omega
    by_cases hfit : x.toNat + y.toNat < 2 ^ 32
    · rw [if_pos hfit, if_neg (by rw [hover]; exact not_not_intro hfit)]
    · rw [if_neg hfit, if_pos (hover.mpr hfit)]
      exact BitVec.neg_one_eq_allOnes

/-- The word an intrinsic leaves, where the code generator takes it. -/
def resultWord (op : NarrowIntrinsic) (w : Nat) (x y : Word) : Word :=
  match op with
  | .smax => minMaxWord false true w x y
  | .smin => minMaxWord true true w x y
  | .umax => minMaxWord false false w x y
  | .umin => minMaxWord true false w x y
  | .uaddSat | .saddSat => saturateWord false w x y
  | .usubSat | .ssubSat => saturateWord true w x y
  | .scmp => compare3Word true w x y
  | .ucmp => compare3Word false w x y

/-- The word has the bits of the intrinsic where the upper bits do not matter, and only there. -/
theorem setWidth_resultWord_iff (op : NarrowIntrinsic) (hop : op.isSignedSat = false) (hw : w ≤ 32) {r : Nat} (hr : r ≤ 32)
    (hwidth : op.isCompare = false → r = w) (x y : Word) :
    (resultWord op w x y).setWidth r = op.eval r (x.setWidth w) (y.setWidth w) ↔ op.UpperBitsAgree w x y := by
  cases op with
  | smax | smin | umax | umin =>
    obtain rfl := hwidth rfl
    refine iff_of_true ?_ trivial
    rw [resultWord, setWidth_minMaxWord _ _ hw, NarrowIntrinsic.eval, BitVec.setWidth_eq]
    rfl
  | scmp | ucmp => exact iff_of_true (setWidth_compare3Word _ hw hr x y) trivial
  | usubSat =>
    obtain rfl := hwidth rfl
    rw [resultWord, NarrowIntrinsic.eval, BitVec.setWidth_eq]
    exact setWidth_usubSat_iff hw x y
  | uaddSat =>
    obtain rfl := hwidth rfl
    rw [resultWord, NarrowIntrinsic.eval, BitVec.setWidth_eq]
    exact setWidth_uaddSat_iff hw x y
  | saddSat | ssubSat => nomatch hop

/-- The code of an intrinsic that is not rejected leaves its word. -/
theorem wp_cgNarrowIntrinsic (img : Image κ) (host : Host κ W) (hcode : img.code.length = img.codeCount.toNat) {cg : Cg} {f : Frame κ W}
    (hok : cg.Ok) (hin : InFrame cg img f) (hzero : f.regs cgRegZero = 0) (hpos : 0 < w) (hw : w ≤ 32) (op : NarrowIntrinsic)
    (hop : op.isSignedSat = false) (x y : Val) (dst : Byte) : Exec.wp (cgNarrowIntrinsic op w x y dst)
      (fun _ => Defines img host cg f dst (resultWord op w (operandWord cg f x) (operandWord cg f y))) (fun e _ => e.OfOperand) cg := by
  cases op with
  | smax | smin | umax | umin => exact wp_cgMinMax host hcode hok hin hzero _ _ hpos hw x y
  | scmp | ucmp => exact wp_cgCompare3 host hcode hok hin _ hpos hw x y
  | uaddSat | usubSat => exact wp_cgSaturate host hcode hok hin hzero _ hpos x y
  | saddSat | ssubSat => nomatch hop

/-- The word is in the register of the result. -/
theorem regs_of_defines {img : Image κ} {host : Host κ W} {cg cg' : Cg} {f : Frame κ W} {dst : Byte} {v : Word} (hok : cg.Ok)
    (hdst : dst.toNat < cg.nextReg) (h : Defines img host cg f dst v cg') : ∃ f', Emitted img host cg cg' f f' ∧ f'.regs dst = v := by
  obtain ⟨f', hem, hag, _⟩ := h
  exact ⟨f', hem, by rw [hag.regs dst (not_scratch_of_lt hok.next_le hdst), Frame.setReg_same]⟩

end NarrowIntrinsicsAux

open NarrowIntrinsicsAux

/-- The code of an intrinsic on integers of `w` bits leaves a word with the bits the intrinsic has on the low bits of the operands exactly
where the upper bits of the operands do not change its comparison. The signed saturating forms are rejected. -/
theorem narrow_intrinsics_iff {κ W : Type} (img : Image κ) (host : Host κ W) (hcode : img.code.length = img.codeCount.toNat)
    (op : NarrowIntrinsic) (w : Nat) (hpos : 0 < w) (hw : w ≤ 32) (x y : Val) (dst : Byte) (cg : Cg) (f : Frame κ W) (hok : cg.Ok)
    (hin : InFrame cg img f) (hzero : f.regs cgRegZero = 0) (hdst : dst.toNat < cg.nextReg) :
    Exec.wp (cgNarrowIntrinsic op w x y dst)
      (fun _ cg' => op.isSignedSat = false ∧ ∃ f', Emitted img host cg cg' f f' ∧ ∀ r ≤ 32, (op.isCompare = false → r = w) →
        ((f'.regs dst).setWidth r = op.eval r ((operandWord cg f x).setWidth w) ((operandWord cg f y).setWidth w) ↔
          op.UpperBitsAgree w (operandWord cg f x) (operandWord cg f y)))
      (fun e _ => op.isSignedSat = true → e = .signedSaturation) cg := by
  cases hop : op.isSignedSat with
  | true =>
    cases op with
    | saddSat | ssubSat => exact fun _ => rfl
    | smax | smin | umax | umin | uaddSat | usubSat | scmp | ucmp => nomatch hop
  | false =>
    refine Exec.wp_mono ?_ (fun _ _ _ hno => nomatch hno) (wp_cgNarrowIntrinsic img host hcode hok hin hzero hpos hw op hop x y dst)
    intro _ cg' hdef
    obtain ⟨f', hem, hword⟩ := regs_of_defines hok hdst hdef
    refine ⟨rfl, f', hem, fun r hr hwidth => ?_⟩
    rw [hword]
    exact setWidth_resultWord_iff op hop hw hr hwidth _ _

/-- Two bytes in registers, the result in a third. -/
def saturateCg : Cg where
  code := []
  map := [(.arg 0, { reg := 0 }), (.arg 1, { reg := 1 }), (.inst 1, { reg := 2 })]
  nextReg := 3
  freeList := []
  zeroReg := cgRegZero
  allocaBytes := 0
  spillBytes := 0
  valSpillCount := 0
  frameBytes := 0
  ssaRegHigh := 3
  globals := []
  funcs := []

/-- The code generator after `llvm.usub.sat.i8`. -/
def saturateDone : Cg :=
  match cgNarrowIntrinsic .usubSat 8 (.loc (.arg 0)) (.loc (.arg 1)) 2 saturateCg with
  | .val _ cg => cg
  | _ => saturateCg

def saturateImage : Image Unit := codeImage saturateDone.code

/-- The operands are in R0 and R1. -/
def saturateFrame (a b : Word) : Frame Unit Unit where
  regs r := if r = 0 then a else if r = 1 then b else 0
  heap := saturateImage.heap
  importFns := []
  world := ()
  pc := 0

theorem saturateCg_ok : saturateCg.Ok := .of_map rfl rfl (by decide) (by decide) (by decide) (by decide)

/-- The code generator gets through the intrinsic. -/
theorem saturateDone_eq : cgNarrowIntrinsic .usubSat 8 (.loc (.arg 0)) (.loc (.arg 1)) 2 saturateCg = .val () saturateDone := rfl

/-- An `add i8` of 255 and 6 leaves 0x105. As a byte it is 5, and 5 less 6 is 0 when it saturates. The code leaves 255. -/
theorem usubSat_wrapped_operand : ∃ f', Emitted saturateImage quietHost saturateCg saturateDone (saturateFrame 0x105 6) f' ∧
    (f'.regs 2).setWidth 8 ≠ NarrowIntrinsic.usubSat.eval 8 ((0x105 : Word).setWidth 8) ((6 : Word).setWidth 8) := by
  have hwp := wp_cgNarrowIntrinsic saturateImage quietHost rfl saturateCg_ok (f := saturateFrame 0x105 6) ⟨rfl, by decide⟩ rfl (w := 8)
    (by decide) (by decide) .usubSat rfl (.loc (.arg 0)) (.loc (.arg 1)) 2
  have hdef := Exec.of_wp hwp saturateDone_eq
  obtain ⟨f', hem, hword⟩ := regs_of_defines saturateCg_ok (by decide) hdef
  refine ⟨f', hem, ?_⟩
  rw [hword]
  decide

theorem narrow_intrinsics_iff_usubSat : ∃ f', Emitted saturateImage quietHost saturateCg saturateDone (saturateFrame 5 6) f' ∧
    (f'.regs 2).setWidth 8 = 0#8 := by
  have hwp := narrow_intrinsics_iff saturateImage quietHost rfl .usubSat 8 (by decide) (by decide) (.loc (.arg 0)) (.loc (.arg 1)) 2 saturateCg
    (saturateFrame 5 6) saturateCg_ok ⟨rfl, by decide⟩ rfl (by decide)
  obtain ⟨-, f', hem, hiff⟩ := Exec.of_wp hwp saturateDone_eq
  exact ⟨f', hem, (hiff 8 (by decide) fun _ => rfl).mpr (by decide)⟩

end CronoVM
