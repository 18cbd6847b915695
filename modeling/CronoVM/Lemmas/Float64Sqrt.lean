import Mathlib.Analysis.Real.Sqrt
import CronoVM.Lemmas.Float64Div
import CronoVM.Lemmas.Float64Mul
import CronoVM.Lemmas.Float64Sum
import CronoVM.Lib.Newton
import CronoVM.Runtime.Float64Convert

/-!
# Square roots of doubles

A turn of the loop of `__cvm_fsqrt` is an inexact step of Newton's iteration: the quotient is rounded, the sum is cut and the halving is
exact. The exponent of the root of a normal double is half of its exponent, so that everything on the way to the root is in the range.
-/

namespace CronoVM

open CvmF64 Newton Precision

theorem cast_two_zpow (n : ℤ) : (((2 : ℚ) ^ n : ℚ) : ℝ) = 2 ^ n := by
  rw [Rat.cast_zpow, Rat.cast_ofNat]

theorem expo_cast {v : ℚ} (hv : v ≠ 0) : expo (v : ℝ) = expo v := by
  refine expo_eq ?_ ?_
  · rw [← Rat.cast_abs, ← cast_two_zpow, Rat.cast_le]
    exact zpow_expo_le hv
  · rw [← Rat.cast_abs, ← cast_two_zpow, Rat.cast_lt]
    exact lt_zpow_expo v

theorem sign_of_pos {x : CvmF64} (h : 0 < x.val) : x.sign = false := by
  rw [← decide_val_lt_zero]
  exact decide_eq_false (not_lt.mpr h.le)

/-- What is within a small factor of a number has an exponent near its. -/
theorem expo_near {s : ℝ} {v : ℚ} (hs : 0 < s) (hle : s ≤ v * 4) (hge : (v : ℝ) ≤ s * 4) : expo s - 2 ≤ expo v ∧ expo v ≤ expo s + 2 := by
  have hpos : (0 : ℝ) < v := by linarith
  have hne : v ≠ 0 := by exact_mod_cast hpos.ne'
  have hfour : (2 : ℝ) ^ (2 : ℤ) = 4 := by norm_num
  rw [← expo_cast hne]
  constructor
  · have hlow : expo s ≤ expo (v : ℝ) + 2 := expo_le_add hs.ne' (by rwa [abs_of_pos hs, abs_of_pos hpos, hfour])
    omega
  · exact expo_le_add hpos.ne' (by rwa [abs_of_pos hs, abs_of_pos hpos, hfour])

/-- A quotient far from the ends of the range is rounded to a normal double. -/
theorem cvmDDiv_near {x y : CvmF64} (hx : x.IsNormal) (hy : y.IsNormal) (hpos : 0 < x.val / y.val) (hlow : -1000 ≤ expo (x.val / y.val))
    (hhigh : expo (x.val / y.val) ≤ 1000) :
    (cvmDDiv x y).IsNormal ∧ |(cvmDDiv x y).val - x.val / y.val| ≤ 1 / 2 ^ 53 * (x.val / y.val) := by
  have hencodes := encodes_cvmDDiv hx hy
  generalize x.val / y.val = z at *
  have herror : |roundEven 53 z - z| ≤ 1 / 2 ^ 53 * z := by
    refine (abs_roundEven_sub_le 53 z).trans ?_
    have hulp := ulp_le_mul (p := 53) hpos.ne'
    rw [abs_of_pos hpos] at hulp
    norm_num at hulp ⊢
    linarith
  have hsmall : 1 / 2 ^ 53 * z ≤ z / 2 := by
    norm_num
    linarith
  obtain ⟨hle, hge⟩ := abs_le.mp (herror.trans hsmall)
  have hround : 0 < roundEven 53 z := by linarith
  have hupper : expo (roundEven 53 z) ≤ expo z + 1 := expo_le_add hround.ne' (by rw [abs_of_pos hround, abs_of_pos hpos, zpow_one]; linarith)
  have hlower : expo z ≤ expo (roundEven 53 z) + 1 := expo_le_add hpos.ne' (by rw [abs_of_pos hround, abs_of_pos hpos, zpow_one]; linarith)
  obtain ⟨hnormal, hval⟩ := hencodes.of_range (by omega) (by omega)
  rw [hval]
  exact ⟨hnormal, herror⟩

/-- A power of two is packed with the significand of one. -/
theorem val_pack_two_pow {e : Word} (hpos : 0 < e.toNat) (hmax : e.toNat < 2047) :
    (cvmDPack 0#32 e 0#32 0#32).IsNormal ∧ (cvmDPack 0#32 e 0#32 0#32).val = 2 ^ ((e.toNat : ℤ) - 1023) := by
  have hone : 2 ^ 32 * (0x100000#32).toNat + (0#32).toNat = 2 ^ 52 := rfl
  obtain ⟨hnormal, hval⟩ := val_pack (s := 0#32) (e := e) (Nat.zero_le 1) hone (le_refl _) (Nat.pow_lt_pow_right one_lt_two (by omega)) hpos hmax
  have hpow : (2 : ℚ) ^ ((e.toNat : ℤ) - 1023) = 2 ^ (52 : ℤ) * 2 ^ ((e.toNat : ℤ) - 1075) := by
    rw [← zpow_add₀ two_ne_zero]
    congr 1
    ring
  refine ⟨hnormal, hval.trans ?_⟩
  rw [hpow]
  norm_num [signed]

/-- The sum of two positive doubles far from the ends of the range is cut, and its half is exact. -/
theorem cvmDMean_near {y q : CvmF64} (hy : y.IsNormal) (hq : q.IsNormal) (hypos : 0 < y.val) (hqpos : 0 < q.val)
    (hlow : -1000 ≤ expo (y.val + q.val)) (hhigh : expo (y.val + q.val) ≤ 1000) : (cvmDMul (cvmDAdd y q) cvmDHalf).IsNormal ∧
    (1 - 2 * (1 / 2 ^ 53)) * ((y.val + q.val) / 2) ≤ (cvmDMul (cvmDAdd y q) cvmDHalf).val ∧
    (cvmDMul (cvmDAdd y q) cvmDHalf).val ≤ (y.val + q.val) / 2 := by
  have hsum : 0 < y.val + q.val := add_pos hypos hqpos
  have hrange : |y.val + q.val| < 2 ^ (1024 : ℤ) :=
    lt_of_lt_of_le (lt_zpow_expo _) (zpow_le_zpow_right₀ one_le_two (by omega))
  obtain ⟨hnormal, hval⟩ := cvmDAdd_truncates hy hq ((sign_of_pos hypos).trans (sign_of_pos hqpos).symm) hrange
  generalize y.val + q.val = t at *
  have herror : |truncate 53 t - t| ≤ 2 * (1 / 2 ^ 53) * t := by
    refine (abs_truncate_sub_lt 53 t).le.trans ?_
    have hulp := ulp_le_mul (p := 53) hsum.ne'
    rw [abs_of_pos hsum] at hulp
    norm_num at hulp ⊢
    linarith
  have hcut := truncate_le 53 hsum.le
  have hrest := (abs_le.mp herror).1
  have hpos : 0 < truncate 53 t := by linarith
  have hupper : expo (truncate 53 t) ≤ expo t + 0 := expo_le_add hpos.ne' (by rw [abs_of_pos hpos, abs_of_pos hsum, zpow_zero]; linarith)
  have hlower : expo t ≤ expo (truncate 53 t) + 1 := expo_le_add hsum.ne' (by rw [abs_of_pos hpos, abs_of_pos hsum, zpow_one]; linarith)
  obtain ⟨hhalf, hhalfval⟩ := val_pack_two_pow (e := 1022#32) (by decide) (by decide)
  have hexp := expo_val (cvmDAdd y q)
  rw [hval] at hexp
  obtain ⟨hmean, hmeanval⟩ := cvmDMul_two_pow hnormal hhalf (k := -1) (hhalfval.trans rfl) (by omega) (by omega)
  have htwo : (2 : ℚ) ^ (-1 : ℤ) = 1 / 2 := by norm_num
  rw [hval, htwo] at hmeanval
  refine ⟨hmean, ?_⟩
  rw [cvmDHalf, hmeanval]
  constructor <;> linarith

/-- A turn of the loop is an inexact step of Newton's iteration. -/
theorem cvmFsqrtStep_near {x y : CvmF64} {s d : ℝ} (hx : x.IsNormal) (hy : y.IsNormal) (hs : 0 < s) (hroot : (x.val : ℝ) = s ^ 2)
    (hlow : -600 ≤ expo s) (hhigh : expo s ≤ 600) (hd : d ≤ 1 / 2) (hnear : |(y.val : ℝ) - s| ≤ d * s) :
    (cvmFsqrtStep x y).IsNormal ∧ |((cvmFsqrtStep x y).val : ℝ) - s| ≤ stepError (1 / 2 ^ 53) d * s := by
  have hds : d * s ≤ 1 / 2 * s := mul_le_mul_of_nonneg_right hd hs.le
  obtain ⟨hyle, hyge⟩ := abs_le.mp (hnear.trans hds)
  have hypos : (0 : ℝ) < y.val := by linarith
  have hquot : ((x.val / y.val : ℚ) : ℝ) = s ^ 2 / y.val := by rw [Rat.cast_div, hroot]
  have hzge : s ≤ s ^ 2 / y.val * 2 := by
    rw [← div_le_iff₀ two_pos, le_div_iff₀ hypos]
    nlinarith
  have hzle : s ^ 2 / y.val ≤ s * 2 := by
    rw [div_le_iff₀ hypos]
    nlinarith
  have hz := expo_near (v := x.val / y.val) hs (by rw [hquot]; linarith) (by rw [hquot]; linarith)
  have hzpos : 0 < x.val / y.val := by
    rw [← Rat.cast_pos (K := ℝ), hquot]
    positivity
  obtain ⟨hq, hqerror⟩ := cvmDDiv_near hx hy hzpos (by omega) (by omega)
  have hqreal : |((cvmDDiv x y).val : ℝ) - s ^ 2 / y.val| ≤ 1 / 2 ^ 53 * (s ^ 2 / y.val) := by
    rw [← hquot]
    have hcast := (Rat.cast_le (K := ℝ)).mpr hqerror
    push_cast at hcast ⊢
    exact hcast
  obtain ⟨hqle, hqge⟩ := abs_le.mp hqreal
  have hqpos : (0 : ℝ) < (cvmDDiv x y).val := by linarith
  have hsum : ((y.val + (cvmDDiv x y).val : ℚ) : ℝ) = y.val + (cvmDDiv x y).val := Rat.cast_add _ _
  have ht := expo_near (v := y.val + (cvmDDiv x y).val) hs (by rw [hsum]; linarith) (by rw [hsum]; linarith)
  obtain ⟨hmean, hcut, hle⟩ := cvmDMean_near hy hq (by exact_mod_cast hypos) (by exact_mod_cast hqpos) (by omega) (by omega)
  refine ⟨hmean, heron_step hs (by linarith) hnear (by norm_num) (by norm_num) hqreal ?_ ?_⟩
  · have hcast := (Rat.cast_le (K := ℝ)).mpr hcut
    push_cast at hcast
    exact hcast
  · have hcast := (Rat.cast_le (K := ℝ)).mpr hle
    push_cast at hcast
    exact hcast

/-! ## The loop -/

section root

variable {x : CvmF64} (hx : x.IsNormal) {s : ℝ} (hs : 0 < s) (hroot : (x.val : ℝ) = s ^ 2)
include hx hs hroot

theorem expo_root : expo s = ((x.exp : ℤ) - 1023) / 2 ∧ -511 ≤ expo s ∧ expo s ≤ 511 := by
  have hexpo : expo s = ((x.exp : ℤ) - 1023) / 2 := by
    rw [← expo_val, ← expo_cast x.val_ne_zero, hroot, sq, expo_mul_self hs.ne']
  obtain ⟨hpos, hmax⟩ := hx
  exact ⟨hexpo, by omega, by omega⟩

/-- The first approximation is the power of two below the root. -/
theorem cvmFsqrtSeed_val : (cvmFsqrtSeed x).IsNormal ∧ (cvmFsqrtSeed x).val = 2 ^ expo s := by
  obtain ⟨hexpo, hlow, hhigh⟩ := expo_root hx hs hroot
  have hseed : ((BitVec.ofInt 32 (((cvmDExp x).toInt - 1023) / 2 + 1023)).toNat : ℤ) = expo s + 1023 := by
    rw [toInt_exp, ← hexpo, BitVec.toNat_ofInt, Int.toNat_of_nonneg (Int.emod_nonneg _ (by norm_num))]
    exact Int.emod_eq_of_lt (by omega) (by norm_num; omega)
  obtain ⟨hnormal, hval⟩ := val_pack_two_pow (e := BitVec.ofInt 32 (((cvmDExp x).toInt - 1023) / 2 + 1023)) (by omega) (by omega)
  rw [hseed, add_sub_cancel_right] at hval
  exact ⟨hnormal, hval⟩

theorem cvmFsqrtSeed_near : |((cvmFsqrtSeed x).val : ℝ) - s| ≤ 1 / 2 * s := by
  have hle := zpow_expo_le hs.ne'
  have hlt := lt_zpow_expo s
  rw [abs_of_pos hs] at hle hlt
  rw [zpow_add_one₀ two_ne_zero] at hlt
  rw [(cvmFsqrtSeed_val hx hs hroot).2, cast_two_zpow, abs_le]
  constructor <;> linarith

/-- A bound of the relative error after a number of turns. -/
noncomputable def sqrtError : ℕ → ℝ
  | 0 => 1 / 2
  | 1 => 26 / 100
  | 2 => 5 / 100
  | 3 => 14 / 10000
  | 4 => 1 / 10 ^ 6
  | 5 => 1 / 10 ^ 12
  | _ + 6 => 3 / 2 ^ 53

omit hx hs hroot in
theorem sqrtError_step (n : ℕ) : sqrtError n ≤ 1 / 2 ∧ stepError (1 / 2 ^ 53) (sqrtError n) ≤ sqrtError (n + 1) := by
  match n with
  | 0 | 1 | 2 | 3 | 4 | 5 | _ + 6 => norm_num [sqrtError, stepError]

/-- The approximation after any number of turns. -/
theorem cvmFsqrtLoop_near (n : ℕ) : (cvmFsqrtLoop x n).IsNormal ∧ |((cvmFsqrtLoop x n).val : ℝ) - s| ≤ sqrtError n * s := by
  obtain ⟨-, hlow, hhigh⟩ := expo_root hx hs hroot
  induction n with
  | zero => exact ⟨(cvmFsqrtSeed_val hx hs hroot).1, cvmFsqrtSeed_near hx hs hroot⟩
  | succ n ih =>
    obtain ⟨hnormal, hnear⟩ := ih
    obtain ⟨hle, hstep⟩ := sqrtError_step n
    obtain ⟨hnormal', hnear'⟩ := cvmFsqrtStep_near hx hnormal hs hroot (by omega) (by omega) hle hnear
    exact ⟨hnormal', hnear'.trans (mul_le_mul_of_nonneg_right hstep hs.le)⟩

end root

end CronoVM
