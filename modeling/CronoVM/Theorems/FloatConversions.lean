import CronoVM.Lemmas.Float32
import CronoVM.Lemmas.Float64Int
import CronoVM.Lemmas.Float64Sqrt

/-!
# Square roots and conversions of doubles

Newton's iteration converges from the power of two below the root, though its quotients are rounded and its sums are cut. The conversions
are from and to 32-bit integers, and from and to single precision.
-/

namespace CronoVM

open CvmF64

/-- The root of a positive normal number is what six turns of the loop give. -/
theorem cvmFsqrt_eq {x : CvmF64} (hx : x.IsNormal) (hsign : x.sign = false) : cvmFsqrt x = cvmFsqrtLoop x 6 := by
  have hplus : cvmDSign x = 0#32 := by simpa [sign] using hsign
  simp [cvmFsqrt, hx.not_nan, hx.not_zero, hx.not_inf, hplus]

/-- The root of a positive normal double is normal and has a relative error below `2 ^ -51`. -/
theorem cvmFsqrt_converges {x : CvmF64} (hx : x.IsNormal) (hsign : x.sign = false) :
    (cvmFsqrt x).IsNormal ∧ |((cvmFsqrt x).val : ℝ) - √x.val| < 1 / 2 ^ 51 * √x.val ∧ 0 < (cvmFsqrt x).val ∧
      x.val * (1 - 1 / 2 ^ 51) ^ 2 < (cvmFsqrt x).val ^ 2 ∧ (cvmFsqrt x).val ^ 2 < x.val * (1 + 1 / 2 ^ 51) ^ 2 := by
  have hpos : 0 < x.val := by
    rw [val, hsign]
    exact mul_pos x.sig_pos (zpow_pos two_pos _)
  have hs : 0 < √(x.val : ℝ) := Real.sqrt_pos.mpr (Rat.cast_pos.mpr hpos)
  have hroot : (x.val : ℝ) = √(x.val : ℝ) ^ 2 := (Real.sq_sqrt (Rat.cast_nonneg.mpr hpos.le)).symm
  obtain ⟨hnormal, hnear⟩ := cvmFsqrtLoop_near hx hs hroot 6
  rw [← cvmFsqrt_eq hx hsign] at hnormal hnear
  have herror : |((cvmFsqrt x).val : ℝ) - √x.val| < 1 / 2 ^ 51 * √x.val :=
    lt_of_le_of_lt hnear (mul_lt_mul_of_pos_right (by norm_num [sqrtError]) hs)
  obtain ⟨hlow, hhigh⟩ := abs_lt.mp herror
  have hle : 0 < √(x.val : ℝ) * (1 - 1 / 2 ^ 51) := mul_pos hs (by norm_num)
  have hval : (0 : ℝ) < (cvmFsqrt x).val := by linarith
  refine ⟨hnormal, herror, by exact_mod_cast hval, ?_, ?_⟩
  · rw [← Rat.cast_lt (K := ℝ)]
    push_cast
    rw [hroot, ← mul_pow]
    exact pow_lt_pow_left₀ (by linarith) hle.le two_ne_zero
  · rw [← Rat.cast_lt (K := ℝ)]
    push_cast
    rw [hroot, ← mul_pow]
    exact pow_lt_pow_left₀ (by linarith) hval.le two_ne_zero

/-- The root of three. -/
theorem cvmFsqrt_converges_three : (cvmFsqrt ⟨0#32, 0x40080000#32⟩).IsNormal ∧
    CvmF64.val ⟨0#32, 0x40080000#32⟩ * (1 - 1 / 2 ^ 51) ^ 2 < (cvmFsqrt ⟨0#32, 0x40080000#32⟩).val ^ 2 :=
  have h := cvmFsqrt_converges (x := ⟨0#32, 0x40080000#32⟩) (by decide) (by decide)
  ⟨h.1, h.2.2.2.1⟩

/-! ## Conversions -/

section conversions

open CvmF64 Precision

/-- A 32-bit integer is converted exactly and comes back. A double is cut towards zero and kept in the range of the integer type, and a NaN
gives 0. A `float` that is normal, a zero or an infinity is converted exactly and comes back. A normal double is cut to 24 significant bits,
with an infinity or a zero of its sign where the exponent is out of range. -/
theorem conversions_exact_and_cut :
    (∀ v : Word, (cvmDFromU32 v).number = some (v.toNat : ℚ) ∧ cvmDToU32 (cvmDFromU32 v) = v) ∧
      (∀ v : Word, (cvmDFromI32 v).number = some (v.toInt : ℚ) ∧ cvmDToI32 (cvmDFromI32 v) = v) ∧
      (∀ x : CvmF64, (cvmDToI32 x).toInt = x.saturated (-2 ^ 31) (2 ^ 31 - 1) ∧ ((cvmDToU32 x).toNat : ℤ) = x.saturated 0 (2 ^ 32 - 1)) ∧
      (∀ f : Word, F32Plain f → ExactF32 f (cvmDFromF32 f)) ∧
      ∀ x : CvmF64, x.IsNormal → EncodesF32 x.sign (truncate 24 x.val) (cvmDToF32 x) :=
  ⟨fun v => ⟨number_cvmDFromU32 v, cvmDToU32_cvmDFromU32 v⟩, fun v => ⟨number_cvmDFromI32 v, cvmDToI32_cvmDFromI32 v⟩,
    fun x => ⟨toInt_cvmDToI32 x, toNat_cvmDToU32 x⟩, fun _ hf => exactF32 hf, fun _ hx => encodes_cvmDToF32 hx⟩

/-- One and a half, and minus a double past the range of `float`. -/
theorem conversions_exact_and_cut_samples : ExactF32 0x3FC00000#32 (cvmDFromF32 0x3FC00000#32) ∧
    EncodesF32 true (truncate 24 (CvmF64.val ⟨1#32, 0xD0000000#32⟩)) (cvmDToF32 ⟨1#32, 0xD0000000#32⟩) := by
  refine ⟨conversions_exact_and_cut.2.2.2.1 0x3FC00000#32 ?_, conversions_exact_and_cut.2.2.2.2 ⟨1#32, 0xD0000000#32⟩ (by decide)⟩
  rintro (h | h)
  · exact absurd h (by decide)
  · exact absurd h (by decide)

/-! ## Doubles from 64-bit integers

Only the addition of the two halves can round, and it cuts. So a 64-bit integer is converted to the nearest double if and only if cutting
rounds it. -/

/-- A result is the double nearest to a number, of two the even one; and the positive zero for zero. -/
def RoundsTo (q : ℚ) (r : CvmF64) : Prop := r.number = some (roundEven 53 q) ∧ (q = 0 → r = cvmDZero)

namespace Aux

/-- A result that is cut is rounded right where cutting and rounding agree. -/
theorem roundsTo_iff {q : ℚ} {r : CvmF64} (hr : r.number = some (truncate 53 q)) (hzero : q = 0 → r = cvmDZero) :
    RoundsTo q r ↔ truncate 53 q = roundEven 53 q := by
  rw [RoundsTo, hr, Option.some_inj]
  exact and_iff_left hzero

/-- An unsigned number is converted right exactly where it is rounded down. -/
theorem roundsTo_u64_iff (v : BitVec 64) : RoundsTo v.toNat (cvmFFromU64 v) ↔ RoundsDown 53 v.toNat := by
  refine (roundsTo_iff (number_cvmFFromU64 v) fun hv => ?_).trans (truncate_eq_roundEven_iff (by decide) false v.toNat)
  have hv0 : v = 0#64 := BitVec.eq_of_toNat_eq (Nat.cast_eq_zero.mp hv)
  rw [hv0]
  rfl

/-- A signed one exactly where its absolute value is. -/
theorem roundsTo_i64_iff (v : BitVec 64) : RoundsTo v.toInt (cvmFFromI64 v) ↔ RoundsDown 53 v.toInt.natAbs := by
  unfold cvmFFromI64
  by_cases hneg : v.slt 0#64 = true
  · have hlt : v.toInt < 0 := by rwa [BitVec.slt_eq_decide, decide_eq_true_eq, BitVec.toInt_zero] at hneg
    have hmag : (-v).toNat = v.toInt.natAbs := by
      have hv := v.isLt
      rw [BitVec.toInt_eq_toNat_cond] at hlt ⊢
      rw [BitVec.toNat_neg]
      omega
    have hval : (v.toInt : ℚ) = -(v.toInt.natAbs : ℚ) := by
      have hint : v.toInt = -(v.toInt.natAbs : ℤ) := by omega
      exact_mod_cast hint
    have hnumber : (cvmDNeg (cvmFFromU64 (-v))).number = some (truncate 53 (v.toInt : ℚ)) := by
      rw [number_cvmDNeg, number_cvmFFromU64, hmag, hval, truncate_neg]
      rfl
    rw [if_pos hneg, roundsTo_iff hnumber fun h => absurd (Int.cast_eq_zero.mp h) (Int.ne_of_lt hlt), hval]
    exact truncate_eq_roundEven_iff (by decide) true v.toInt.natAbs
  · have hle : 0 ≤ v.toInt := by
      rw [BitVec.slt_eq_decide, decide_eq_true_eq, BitVec.toInt_zero] at hneg
      exact not_lt.mp hneg
    have hmag : v.toInt = v.toNat := by
      have hv := v.isLt
      rw [BitVec.toInt_eq_toNat_cond] at hle ⊢
      omega
    rw [if_neg hneg, hmag, Int.natAbs_natCast, Int.cast_natCast]
    exact roundsTo_u64_iff v

end Aux

open Aux

/-- A 64-bit integer is converted to the nearest double, ties to even, if and only if the bits of its magnitude below the 53 highest are less
than half a unit, or half of one behind an even digit. -/
theorem conversion_of_64_bits_iff (v : BitVec 64) :
    (RoundsTo v.toNat (cvmFFromU64 v) ↔ RoundsDown 53 v.toNat) ∧ (RoundsTo v.toInt (cvmFFromI64 v) ↔ RoundsDown 53 v.toInt.natAbs) :=
  ⟨roundsTo_u64_iff v, roundsTo_i64_iff v⟩

/-- `2 ^ 53 + 3` lies halfway between two doubles, and the odd one is the result. -/
theorem conversion_cuts_tie : ¬∀ v : BitVec 64, RoundsTo v.toNat (cvmFFromU64 v) ∧ RoundsTo v.toInt (cvmFFromI64 v) := by
  intro h
  have hdown := (roundsTo_u64_iff 0x20000000000003#64).mp (h 0x20000000000003#64).1
  have hnot : ¬RoundsDown 53 (0x20000000000003#64 : BitVec 64).toNat := by decide
  exact hnot hdown

end conversions

end CronoVM
