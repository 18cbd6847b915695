import Mathlib.Algebra.Ring.Nat
import Mathlib.Tactic.Common

/-!
# Narrow integers in wide registers

The integer operations of a typed IR on `w` bits, and how a machine with registers of `m ≥ w` bits computes them on registers whose low
`w` bits are the operands. Sums, products, bitwise operations and left shifts need no more than the low bits. Right shifts, divisions,
remainders and comparisons need their operands extended to the whole register first, with zeros or with the sign.
-/

namespace CronoVM.NarrowInt

/-! ## Operations -/

/-- The binary operations. -/
inductive IntBinOp where
  | add | sub | mul | udiv | sdiv | urem | srem | shl | lshr | ashr | and | or | xor
  deriving DecidableEq, Repr

/-- The predicates of a comparison. -/
inductive IntPred where
  | eq | ne | ugt | uge | ult | ule | sgt | sge | slt | sle
  deriving DecidableEq, Repr

namespace IntBinOp

/-- The operation is a division or a remainder. -/
def isDiv : IntBinOp → Bool
  | .udiv | .sdiv | .urem | .srem => true
  | _ => false

/-- The operation shifts. -/
def isShift : IntBinOp → Bool
  | .shl | .lshr | .ashr => true
  | _ => false

/-- The result, where there is one: none for a zero divisor, for a signed division that overflows, and for a shift by the width or
more. -/
def eval {w : Nat} (op : IntBinOp) (x y : BitVec w) : Option (BitVec w) :=
  match op with
  | .add => some (x + y)
  | .sub => some (x - y)
  | .mul => some (x * y)
  | .udiv => if y = 0 then none else some (x / y)
  | .sdiv => if y = 0 ∨ (x = BitVec.intMin w ∧ y = -1) then none else some (x.sdiv y)
  | .urem => if y = 0 then none else some (x % y)
  | .srem => if y = 0 ∨ (x = BitVec.intMin w ∧ y = -1) then none else some (x.srem y)
  | .shl => if y.toNat < w then some (x <<< y.toNat) else none
  | .lshr => if y.toNat < w then some (x >>> y.toNat) else none
  | .ashr => if y.toNat < w then some (x.sshiftRight y.toNat) else none
  | .and => some (x &&& y)
  | .or => some (x ||| y)
  | .xor => some (x ^^^ y)

/-- A shift that has a result is by less than the width. -/
theorem lt_of_isShift {w : Nat} {op : IntBinOp} (hop : op.isShift = true) {x y z : BitVec w} (hz : op.eval x y = some z) :
    y.toNat < w := by
  by_contra hge
  cases op with
  | shl | lshr | ashr => cases (if_neg hge).symm.trans hz
  | add | sub | mul | udiv | sdiv | urem | srem | and | or | xor => cases hop

end IntBinOp

namespace IntPred

/-- The predicate compares signed values. -/
def isSigned : IntPred → Bool
  | .sgt | .sge | .slt | .sle => true
  | _ => false

/-- The outcome of a comparison. -/
def eval {w : Nat} (p : IntPred) (x y : BitVec w) : Bool :=
  match p with
  | .eq => x = y
  | .ne => x ≠ y
  | .ugt => y.ult x
  | .uge => y.ule x
  | .ult => x.ult y
  | .ule => x.ule y
  | .sgt => y.slt x
  | .sge => y.sle x
  | .slt => x.slt y
  | .sle => x.sle y

end IntPred

variable {m w : Nat}

/-! ## Extending the low bits -/

/-- The ones below bit `w`. -/
def lowMask (m w : Nat) : BitVec m := BitVec.ofNat m (2 ^ w - 1)

/-- The low bits of a register, extended to all of it: with the sign or with zeros. -/
def extendLow (signed : Bool) (w : Nat) (r : BitVec m) : BitVec m :=
  if signed = true then (r.setWidth w).signExtend m else (r.setWidth w).setWidth m

/-- Zeros are put above the low bits by a mask. -/
theorem and_lowMask (r : BitVec m) : r &&& lowMask m w = (r.setWidth w).setWidth m := by
  apply BitVec.eq_of_getLsbD_eq
  intro i hi
  simp only [lowMask, BitVec.getLsbD_and, BitVec.getLsbD_ofNat, Nat.testBit_two_pow_sub_one, BitVec.getLsbD_setWidth, hi, decide_true,
    Bool.true_and]
  exact Bool.and_comm _ _

/-- The other mask rounds down to a multiple. -/
theorem toNat_and_not_lowMask (r : BitVec m) : (r &&& ~~~lowMask m w).toNat = r.toNat / 2 ^ w * 2 ^ w := by
  have hshift : r &&& ~~~lowMask m w = (r >>> w) <<< w := by
    apply BitVec.eq_of_getLsbD_eq
    intro i hi
    rw [lowMask, BitVec.getLsbD_and, BitVec.getLsbD_not, BitVec.getLsbD_ofNat, Nat.testBit_two_pow_sub_one, BitVec.getLsbD_shiftLeft,
      BitVec.getLsbD_ushiftRight]
    by_cases hiw : i < w
    · simp [hi, hiw]
    · have hadd : w + (i - w) = i := by omega
      simp [hi, hiw, hadd]
  have hle : r.toNat / 2 ^ w * 2 ^ w ≤ r.toNat := Nat.div_mul_le_self _ _
  rw [hshift, BitVec.toNat_shiftLeft, BitVec.toNat_ushiftRight, Nat.shiftLeft_eq, Nat.shiftRight_eq_div_pow]
  exact Nat.mod_eq_of_lt (Nat.lt_of_le_of_lt hle r.isLt)

/-- The sign is put above the low bits by two shifts. -/
theorem sshiftRight_shiftLeft (hpos : 0 < w) (hw : w ≤ m) (r : BitVec m) :
    (r <<< (m - w)).sshiftRight (m - w) = (r.setWidth w).signExtend m := by
  apply BitVec.eq_of_getLsbD_eq
  intro i hi
  have hmsb : (r <<< (m - w)).msb = r.getLsbD (w - 1) := by
    rw [BitVec.msb_eq_getLsbD_last, BitVec.getLsbD_shiftLeft]
    have h1 : m - 1 < m := by omega
    have h2 : ¬m - 1 < m - w := by omega
    have h3 : m - 1 - (m - w) = w - 1 := by omega
    simp [h1, h2, h3]
  have hsign : (r.setWidth w).msb = r.getLsbD (w - 1) := by
    rw [BitVec.msb_eq_getLsbD_last, BitVec.getLsbD_setWidth]
    have h1 : w - 1 < w := by omega
    simp [h1]
  rw [BitVec.getLsbD_sshiftRight, BitVec.getLsbD_signExtend, hmsb, hsign, BitVec.getLsbD_shiftLeft, BitVec.getLsbD_setWidth]
  by_cases hiw : i < w
  · have h1 : m - w + i < m := by omega
    have h2 : ¬m ≤ i := by omega
    have h3 : ¬m - w + i < m - w := by omega
    simp [hi, hiw, h1, h2]
  · have h1 : ¬m - w + i < m := by omega
    have h2 : ¬m ≤ i := by omega
    simp [hi, hiw, h1, h2]

/-! ## Operations on extended operands -/

/-- Zero-extension can be undone. -/
theorem setWidth_setWidth_self (hw : w ≤ m) (x : BitVec w) : (x.setWidth m).setWidth w = x := by
  rw [BitVec.setWidth_setWidth_of_le x hw, BitVec.setWidth_eq]

/-- The low bits of a sign extension are a sign extension. -/
theorem setWidth_signExtend_of_le {k : Nat} (hk : k ≤ m) (x : BitVec w) : (x.signExtend m).setWidth k = x.signExtend k := by
  apply BitVec.eq_of_getLsbD_eq
  intro i hi
  have him : i < m := by omega
  rw [BitVec.getLsbD_setWidth, BitVec.getLsbD_signExtend, BitVec.getLsbD_signExtend]
  simp only [hi, him, decide_true, Bool.true_and]

/-- So can sign-extension. -/
theorem setWidth_signExtend_self (hw : w ≤ m) (x : BitVec w) : (x.signExtend m).setWidth w = x := by
  rw [setWidth_signExtend_of_le hw, BitVec.signExtend_eq]

/-- Extending changes none of the low bits. -/
theorem setWidth_extendLow (hw : w ≤ m) (signed : Bool) (r : BitVec m) : (extendLow signed w r).setWidth w = r.setWidth w := by
  unfold extendLow
  split
  · exact setWidth_signExtend_self hw _
  · exact setWidth_setWidth_self hw _

/-- The low bits of a difference. -/
theorem setWidth_sub (hw : w ≤ m) (x y : BitVec m) : (x - y).setWidth w = x.setWidth w - y.setWidth w := by
  rw [BitVec.sub_eq_add_neg, BitVec.sub_eq_add_neg, BitVec.setWidth_add _ _ hw, BitVec.setWidth_neg_of_le hw]

/-- An unsigned quotient of zero-extended operands. -/
theorem setWidth_udiv (hw : w ≤ m) (x y : BitVec w) : (x.setWidth m / y.setWidth m).setWidth w = x / y := by
  apply BitVec.eq_of_toNat_eq
  rw [BitVec.toNat_setWidth, BitVec.toNat_udiv, BitVec.toNat_udiv, BitVec.toNat_setWidth_of_le hw, BitVec.toNat_setWidth_of_le hw]
  exact Nat.mod_eq_of_lt (Nat.lt_of_le_of_lt (Nat.div_le_self _ _) x.isLt)

/-- An unsigned remainder of zero-extended operands. -/
theorem setWidth_umod (hw : w ≤ m) (x y : BitVec w) : (x.setWidth m % y.setWidth m).setWidth w = x % y := by
  apply BitVec.eq_of_toNat_eq
  rw [BitVec.toNat_setWidth, BitVec.toNat_umod, BitVec.toNat_umod, BitVec.toNat_setWidth_of_le hw, BitVec.toNat_setWidth_of_le hw]
  exact Nat.mod_eq_of_lt (Nat.lt_of_le_of_lt (Nat.mod_le _ _) x.isLt)

/-- The low bits of a register, as a signed number. -/
theorem toInt_setWidth_of_le (hw : w ≤ m) (r : BitVec m) : (r.setWidth w).toInt = r.toInt.bmod (2 ^ w) := by
  rw [BitVec.toInt_setWidth, BitVec.toInt_eq_toNat_bmod, Int.bmod_bmod_of_dvd (Nat.pow_dvd_pow 2 hw)]

/-- A signed quotient of sign-extended operands; the one that overflows wraps around. -/
theorem setWidth_sdiv (hw : w ≤ m) (x y : BitVec w) : ((x.signExtend m).sdiv (y.signExtend m)).setWidth w = x.sdiv y := by
  apply BitVec.eq_of_toInt_eq
  rw [toInt_setWidth_of_le hw, BitVec.toInt_sdiv, BitVec.toInt_sdiv, BitVec.toInt_signExtend_of_le hw,
    BitVec.toInt_signExtend_of_le hw, Int.bmod_bmod_of_dvd (Nat.pow_dvd_pow 2 hw)]

/-- A signed remainder of sign-extended operands. -/
theorem setWidth_srem (hw : w ≤ m) (x y : BitVec w) : ((x.signExtend m).srem (y.signExtend m)).setWidth w = x.srem y := by
  apply BitVec.eq_of_toInt_eq
  have hsmall : (x.srem y).toInt.bmod (2 ^ w) = (x.srem y).toInt := BitVec.toInt_bmod_cancel _
  rw [toInt_setWidth_of_le hw, BitVec.toInt_srem, BitVec.toInt_signExtend_of_le hw, BitVec.toInt_signExtend_of_le hw,
    ← BitVec.toInt_srem x y]
  exact hsmall

/-- A logical shift of a zero-extended operand. -/
theorem setWidth_ushiftRight (hw : w ≤ m) (x : BitVec w) (n : Nat) : (x.setWidth m >>> n).setWidth w = x >>> n := by
  apply BitVec.eq_of_toNat_eq
  rw [BitVec.toNat_setWidth, BitVec.toNat_ushiftRight, BitVec.toNat_ushiftRight, BitVec.toNat_setWidth_of_le hw]
  exact Nat.mod_eq_of_lt (Nat.lt_of_le_of_lt (Nat.shiftRight_le _ _) x.isLt)

/-- An arithmetic shift of a sign-extended operand. -/
theorem setWidth_sshiftRight (hw : w ≤ m) (x : BitVec w) (n : Nat) :
    ((x.signExtend m).sshiftRight n).setWidth w = x.sshiftRight n := by
  apply BitVec.eq_of_toInt_eq
  have hsmall : (x.sshiftRight n).toInt.bmod (2 ^ w) = (x.sshiftRight n).toInt := BitVec.toInt_bmod_cancel _
  rw [toInt_setWidth_of_le hw, BitVec.toInt_sshiftRight, BitVec.toInt_signExtend_of_le hw, ← BitVec.toInt_sshiftRight]
  exact hsmall

/-! ## Comparisons of extended operands -/

/-- Zero-extension keeps operands apart. -/
theorem setWidth_inj (hw : w ≤ m) (x y : BitVec w) : x.setWidth m = y.setWidth m ↔ x = y := by
  constructor
  · intro h
    rw [← setWidth_setWidth_self hw x, h, setWidth_setWidth_self hw]
  · intro h
    rw [h]

/-- Zero-extension keeps the unsigned order. -/
theorem ult_setWidth (hw : w ≤ m) (x y : BitVec w) : (x.setWidth m).ult (y.setWidth m) = x.ult y := by
  simp only [BitVec.ult, BitVec.toNat_setWidth_of_le hw]

/-- And the weak one. -/
theorem ule_setWidth (hw : w ≤ m) (x y : BitVec w) : (x.setWidth m).ule (y.setWidth m) = x.ule y := by
  simp only [BitVec.ule, BitVec.toNat_setWidth_of_le hw]

/-- Sign-extension keeps the signed order. -/
theorem slt_signExtend (hw : w ≤ m) (x y : BitVec w) : (x.signExtend m).slt (y.signExtend m) = x.slt y := by
  simp only [BitVec.slt, BitVec.toInt_signExtend_of_le hw]

/-- And the weak one. -/
theorem sle_signExtend (hw : w ≤ m) (x y : BitVec w) : (x.signExtend m).sle (y.signExtend m) = x.sle y := by
  simp only [BitVec.sle, BitVec.toInt_signExtend_of_le hw]

/-- A predicate compares narrow integers as it compares them extended to whole registers, by its own signedness. -/
theorem IntPred.eval_extendLow (p : IntPred) (hw : w ≤ m) (r s : BitVec m) :
    p.eval (extendLow p.isSigned w r) (extendLow p.isSigned w s) = p.eval (r.setWidth w) (s.setWidth w) := by
  cases p with
  | eq => simp [eval, extendLow, isSigned, setWidth_inj hw]
  | ne => simp [eval, extendLow, isSigned, setWidth_inj hw]
  | ugt => exact ult_setWidth hw _ _
  | uge => exact ule_setWidth hw _ _
  | ult => exact ult_setWidth hw _ _
  | ule => exact ule_setWidth hw _ _
  | sgt => exact slt_signExtend hw _ _
  | sge => exact sle_signExtend hw _ _
  | slt => exact slt_signExtend hw _ _
  | sle => exact sle_signExtend hw _ _

end CronoVM.NarrowInt
