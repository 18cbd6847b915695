import CronoVM.Lib.Precision
import Mathlib.Algebra.Order.Field.Basic
import Mathlib.Tactic.FieldSimp
import Mathlib.Tactic.Linarith
import Mathlib.Tactic.Ring

/-!
# Newton's iteration for square roots, with errors

The arithmetic mean of an approximation `y` of `s` and of `s ^ 2 / y` is not below `s`, and its error is quadratic in that of `y`. An
inexact step, whose quotient is off by a relative `η` and whose mean is cut by up to a relative `2 * η`, adds a few `η` to it.
-/

namespace CronoVM.Newton

variable {K : Type*} [Field K] [LinearOrder K] [IsStrictOrderedRing K] {s y q y' d η : K}

/-- The error of an exact step. -/
theorem mean_sub (hy : y ≠ 0) : (y + s ^ 2 / y) / 2 - s = (y - s) ^ 2 / (2 * y) := by
  field_simp
  ring

/-- What an inexact step makes of a relative error `d`. -/
def stepError (η d : K) : K := (d ^ 2 + η) / (2 * (1 - d)) + 2 * η

section step

variable (hs : 0 < s) (hd : d < 1) (hy : |y - s| ≤ d * s)
include hs hd hy

theorem approx_pos : (1 - d) * s ≤ y ∧ 0 < y := by
  have hlow := (abs_le.mp hy).1
  have hle : (1 - d) * s ≤ y := by linarith
  exact ⟨hle, lt_of_lt_of_le (mul_pos (sub_pos.mpr hd) hs) hle⟩

/-- The exact step, and the quotient in it. -/
theorem exact_step : s ≤ (y + s ^ 2 / y) / 2 ∧ (y + s ^ 2 / y) / 2 - s ≤ d ^ 2 / (2 * (1 - d)) * s ∧ s ^ 2 / y ≤ 1 / (1 - d) * s := by
  obtain ⟨hle, hpos⟩ := approx_pos hs hd hy
  have hroom : 0 < (1 - d) * s := mul_pos (sub_pos.mpr hd) hs
  have hmean := mean_sub (s := s) hpos.ne'
  have hsquare : (y - s) ^ 2 ≤ (d * s) ^ 2 := sq_le_sq' (abs_le.mp hy).1 (abs_le.mp hy).2
  have hne : 1 - d ≠ 0 := (sub_pos.mpr hd).ne'
  refine ⟨?_, ?_, ?_⟩
  · rw [← sub_nonneg, hmean]
    exact div_nonneg (sq_nonneg _) (by linarith)
  · calc (y + s ^ 2 / y) / 2 - s = (y - s) ^ 2 / (2 * y) := hmean
      _ ≤ (d * s) ^ 2 / (2 * ((1 - d) * s)) := div_le_div₀ (sq_nonneg _) hsquare (by linarith) (by linarith)
      _ = d ^ 2 / (2 * (1 - d)) * s := by
        field_simp
  · calc s ^ 2 / y ≤ s ^ 2 / ((1 - d) * s) := div_le_div_of_nonneg_left (sq_nonneg s) hroom hle
      _ = 1 / (1 - d) * s := by
        field_simp

/-- An inexact step contracts. -/
theorem heron_step (hη : 0 ≤ η) (hη' : 2 * η ≤ 1) (hq : |q - s ^ 2 / y| ≤ η * (s ^ 2 / y)) (hlow : (1 - 2 * η) * ((y + q) / 2) ≤ y')
    (hhigh : y' ≤ (y + q) / 2) : |y' - s| ≤ stepError η d * s := by
  obtain ⟨hmean, herror, hquot⟩ := exact_step hs hd hy
  obtain ⟨hqlow, hqhigh⟩ := abs_le.mp hq
  have hpart : η * (s ^ 2 / y) ≤ η * (1 / (1 - d) * s) := mul_le_mul_of_nonneg_left hquot hη
  have hne : 1 - d ≠ 0 := (sub_pos.mpr hd).ne'
  have hsplit : stepError η d * s = d ^ 2 / (2 * (1 - d)) * s + η * (1 / (1 - d) * s) / 2 + 2 * η * s := by
    unfold stepError
    field_simp
  have hnonneg : 0 ≤ η * (1 / (1 - d) * s) := mul_nonneg hη (mul_nonneg (one_div_nonneg.mpr (by linarith)) hs.le)
  have hηs : 0 ≤ η * s := mul_nonneg hη hs.le
  have hsq : 0 ≤ d ^ 2 / (2 * (1 - d)) * s := mul_nonneg (div_nonneg (sq_nonneg d) (by linarith)) hs.le
  rw [hsplit, abs_le]
  constructor
  · -- the mean is cut, and the exact one is not below `s`
    have hmid : s - η * (1 / (1 - d) * s) / 2 ≤ (y + q) / 2 := by linarith
    have hcut : (1 - 2 * η) * (s - η * (1 / (1 - d) * s) / 2) ≤ (1 - 2 * η) * ((y + q) / 2) :=
      mul_le_mul_of_nonneg_left hmid (by linarith)
    have hprod : 0 ≤ η * (η * (1 / (1 - d) * s)) := mul_nonneg hη hnonneg
    linarith
  · linarith

end step

end CronoVM.Newton
