import CronoVM.Lemmas.Int64

/-!
# 64-bit division

The long division of the runtime computes the quotients and remainders of 64-bit numbers. Signed operands are divided by their absolute
values; the absolute value of the smallest number is itself, and as an unsigned number that is right.
-/

namespace CronoVM

open TwoWord CvmI64

namespace DivisionAux

variable (a b x : CvmI64)

/-- The sign test reads the top bit. -/
theorem cvmI64IsNeg_eq : cvmI64IsNeg x = x.bits.msb := by
  have h1 : (1#32).toNat = 2 ^ 1 - 1 := rfl
  have hhi := x.hi.isLt
  have hbit : ((x.hi >>> 31) &&& 1#32).toNat = x.hi.toNat / 2 ^ 31 % 2 ^ 1 := by
    rw [BitVec.toNat_and, h1, Nat.and_two_pow_sub_one_eq_mod, BitVec.toNat_ushiftRight, Nat.shiftRight_eq_div_pow]
  have hmsb : x.bits.msb = x.hi.msb := msb_append (by decide) x.hi x.lo
  rw [hmsb, BitVec.msb_eq_decide, cvmI64IsNeg, Bool.eq_iff_iff, bne_iff_ne, Ne, ← BitVec.toNat_inj, hbit, decide_eq_true_eq,
    BitVec.toNat_zero]
  omega

/-- The absolute value, which wraps for the smallest number. -/
theorem bits_abs : (cvmI64Abs x).bits = x.bits.abs := by
  rw [BitVec.abs_eq, cvmI64Abs, cvmI64IsNeg_eq]
  cases x.bits.msb with
  | true => exact bits_neg x
  | false => rfl

/-- The quotient of unsigned numbers. -/
theorem bits_udiv (hb : b.bits ≠ 0) : (cvmUdiv64 a b).bits = a.bits / b.bits := by
  have hne : b.bits.toNat ≠ 0 := fun h => hb (BitVec.eq_of_toNat_eq h)
  apply BitVec.eq_of_toNat_eq
  rw [toNat_udiv, LongDivision.quotient, if_neg hne, BitVec.toNat_udiv]

/-- Their remainder, also by zero. -/
theorem bits_umod : (cvmUmod64 a b).bits = a.bits % b.bits := by
  apply BitVec.eq_of_toNat_eq
  rw [toNat_umod, BitVec.toNat_umod]

/-- A number is zero only if its absolute value is. -/
theorem abs_ne_zero {y : BitVec 64} (hy : y ≠ 0) : y.abs ≠ 0 := by
  rw [BitVec.abs_eq]
  cases y.msb with
  | true => exact fun h => hy (BitVec.neg_eq_zero_iff.mp h)
  | false => exact hy

/-- The absolute value by the sign. -/
theorem abs_of_msb {y : BitVec 64} {s : Bool} (h : y.msb = s) : y.abs = if s = true then -y else y := by
  rw [BitVec.abs_eq, h]

/-- The quotient of signed numbers, cut towards zero. -/
theorem bits_sdiv (hb : b.bits ≠ 0) : (cvmSdiv64 a b).bits = a.bits.sdiv b.bits := by
  have hq : ((cvmUdivmod64 (cvmI64Abs a) (cvmI64Abs b)).q).bits = a.bits.abs / b.bits.abs := by
    have h := bits_udiv (cvmI64Abs a) (cvmI64Abs b) (by rw [bits_abs]; exact abs_ne_zero hb)
    rwa [bits_abs, bits_abs] at h
  have hneg := bits_neg (cvmUdivmod64 (cvmI64Abs a) (cvmI64Abs b)).q
  rw [hq] at hneg
  rw [BitVec.sdiv_eq, cvmSdiv64, cvmI64IsNeg_eq, cvmI64IsNeg_eq]
  cases ha : a.bits.msb with
  | true =>
    cases hbm : b.bits.msb with
    | true =>
      rw [abs_of_msb ha, abs_of_msb hbm] at hq
      exact hq
    | false =>
      rw [abs_of_msb ha, abs_of_msb hbm] at hneg
      exact hneg
  | false =>
    cases hbm : b.bits.msb with
    | true =>
      rw [abs_of_msb ha, abs_of_msb hbm] at hneg
      exact hneg
    | false =>
      rw [abs_of_msb ha, abs_of_msb hbm] at hq
      exact hq

/-- Their remainder, with the sign of the dividend. -/
theorem bits_smod : (cvmSmod64 a b).bits = a.bits.srem b.bits := by
  have hr : ((cvmUdivmod64 (cvmI64Abs a) (cvmI64Abs b)).r).bits = a.bits.abs % b.bits.abs := by
    have h := bits_umod (cvmI64Abs a) (cvmI64Abs b)
    rwa [bits_abs, bits_abs] at h
  have hneg := bits_neg (cvmUdivmod64 (cvmI64Abs a) (cvmI64Abs b)).r
  rw [hr] at hneg
  rw [BitVec.srem_eq, cvmSmod64, cvmI64IsNeg_eq]
  cases ha : a.bits.msb with
  | true =>
    rw [abs_of_msb ha] at hneg
    cases hbm : b.bits.msb with
    | true =>
      rw [abs_of_msb hbm] at hneg
      exact hneg
    | false =>
      rw [abs_of_msb hbm] at hneg
      exact hneg
  | false =>
    rw [abs_of_msb ha] at hr
    cases hbm : b.bits.msb with
    | true =>
      rw [abs_of_msb hbm] at hr
      exact hr
    | false =>
      rw [abs_of_msb hbm] at hr
      exact hr

/-- The quotient and the remainder give the dividend back, even where the quotient wraps. -/
theorem sdiv_mul_add_srem (x y : BitVec 64) : x.sdiv y * y + x.srem y = x := by
  apply BitVec.eq_of_toInt_eq
  rw [BitVec.toInt_add, BitVec.toInt_mul, BitVec.toInt_sdiv, BitVec.toInt_srem, Int.bmod_mul_bmod, Int.bmod_add_bmod,
    Int.tdiv_mul_add_tmod]
  exact BitVec.toInt_bmod_cancel x

end DivisionAux

open DivisionAux

/-- The divisions of the runtime on all 64-bit operands. With a divisor that is not zero, `__cvm_udiv64` and `__cvm_umod64` are floor and
remainder; `__cvm_sdiv64` truncates toward zero, modulo 2⁶⁴, `__cvm_smod64` has the sign of the dividend, and together they give the
dividend back. A divisor of zero gives a quotient of ones and the dividend. In no turn does the shift of the partial remainder lose a bit. -/
theorem division64_exact (a b : CvmI64) :
    (b.bits ≠ 0 → (cvmUdiv64 a b).bits.toNat = a.bits.toNat / b.bits.toNat ∧ (cvmUmod64 a b).bits.toNat = a.bits.toNat % b.bits.toNat ∧
      (cvmSdiv64 a b).bits.toInt = (a.bits.toInt.tdiv b.bits.toInt).bmod (2 ^ 64) ∧
      (cvmSmod64 a b).bits.toInt = a.bits.toInt.tmod b.bits.toInt ∧
      (cvmSdiv64 a b).bits * b.bits + (cvmSmod64 a b).bits = a.bits) ∧
    (b.bits = 0 → (cvmUdiv64 a b).bits = BitVec.allOnes 64 ∧ cvmUmod64 a b = a) ∧
    ∀ k < 64, (cvmU64Shl (cvmUdivmodLoop a b k).r 1#32).bits.toNat = 2 * (cvmUdivmodLoop a b k).r.bits.toNat := by
  refine ⟨fun hb => ⟨?_, toNat_umod a b, ?_, ?_, ?_⟩, fun hb => ⟨?_, ?_⟩, fun k hk => ?_⟩
  · rw [bits_udiv a b hb, BitVec.toNat_udiv]
  · rw [bits_sdiv a b hb, BitVec.toInt_sdiv]
  · rw [bits_smod, BitVec.toInt_srem]
  · rw [bits_sdiv a b hb, bits_smod, sdiv_mul_add_srem]
  · apply BitVec.eq_of_toNat_eq
    rw [toNat_udiv, hb, BitVec.toNat_allOnes]
    rfl
  · have hbits : (cvmUmod64 a b).bits = a.bits := by
      rw [bits_umod, hb]
      exact BitVec.umod_zero
    have hwords := append_inj.mp hbits
    exact CvmI64.mk.injEq .. |>.mpr ⟨hwords.2, hwords.1⟩
  · have hroom := (dividesPrefix_loop (a := a) (b := b) (Nat.le_of_lt hk)).rem_lt hk
    have hone : (1#32 : Word).toNat % 64 = 1 := rfl
    rw [bits_shl, hone, BitVec.toNat_shiftLeft, Nat.shiftLeft_eq]
    omega

/-- The smallest number divided by minus one. -/
theorem division64_exact_min : (cvmSdiv64 ⟨0, 0x80000000⟩ ⟨0xFFFFFFFF, 0xFFFFFFFF⟩).bits.toInt = -2 ^ 63 := by
  have h := ((division64_exact ⟨0, 0x80000000⟩ ⟨0xFFFFFFFF, 0xFFFFFFFF⟩).1 (by decide)).2.2.1
  rw [h]
  decide

end CronoVM
