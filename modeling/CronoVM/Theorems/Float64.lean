import CronoVM.Lemmas.Float64Div
import CronoVM.Lemmas.Float64Mul
import CronoVM.Lemmas.Float64Sum

/-!
# The operations on doubles

What multiplication, division, addition and subtraction of normal doubles give, as numbers.
-/

namespace CronoVM

open CvmF64 Precision

/-- Three. -/
def sampleThree : CvmF64 := ⟨0#32, 0x40080000#32⟩

/-- Minus a tenth, rounded. -/
def sampleTenth : CvmF64 := ⟨0x9999999A#32, 0xBFB99999#32⟩

/-! ## Multiplication -/

/-- The product of two normal doubles is the exact product, cut towards zero to 53 significant bits, and the four words of the product of
the significands are exact. -/
theorem cvmDMul_truncates {a b : CvmF64} (ha : a.IsNormal) (hb : b.IsNormal) :
    Encodes (a.sign ^^ b.sign) (truncate 53 (a.val * b.val)) (cvmDMul a b) ∧
      fourWords (cvmDMulWords a.full a.lo b.full b.lo) = a.sig * b.sig :=
  ⟨encodes_cvmDMul ha hb, fourWords_cvmDMulWords _ _ _ _⟩

theorem cvmDMul_truncates_sampleThree :
    Encodes (sampleThree.sign ^^ sampleTenth.sign) (truncate 53 (sampleThree.val * sampleTenth.val)) (cvmDMul sampleThree sampleTenth) ∧
      fourWords (cvmDMulWords sampleThree.full sampleThree.lo sampleTenth.full sampleTenth.lo) = sampleThree.sig * sampleTenth.sig :=
  cvmDMul_truncates (by decide) (by decide)

/-! ## Division -/

/-- The quotient of two normal doubles is the exact quotient, rounded to 53 significant bits, ties to even; and before every turn of the
long division the remainder is below the divisor and gives, with the quotient so far, the shifted dividend back. -/
theorem cvmDDiv_rounds {a b : CvmF64} (ha : a.IsNormal) (hb : b.IsNormal) :
    Encodes (a.sign ^^ b.sign) (roundEven 53 (a.val / b.val)) (cvmDDiv a b) ∧
      ∀ n ≤ 53, DividesTo (num (a.dividend b).aMHi (a.dividend b).aMLo) b.sig n (a.divState b n) :=
  ⟨encodes_cvmDDiv ha hb, fun _ hn => dividesTo_divState a b hn⟩

theorem cvmDDiv_rounds_sampleThree :
    Encodes (sampleThree.sign ^^ sampleTenth.sign) (roundEven 53 (sampleThree.val / sampleTenth.val)) (cvmDDiv sampleThree sampleTenth) ∧
      ∀ n ≤ 53, DividesTo (num (sampleThree.dividend sampleTenth).aMHi (sampleThree.dividend sampleTenth).aMLo) sampleTenth.sig n
        (sampleThree.divState sampleTenth n) :=
  cvmDDiv_rounds (by decide) (by decide)

/-! ## Addition and subtraction -/

/-- A sum or a difference of normal doubles is less than one unit in the last place off, and zero only where the exact one is, if and only if
nothing cancels or less than half a unit of the larger operand is shifted out. -/
theorem cvmDAdd_cvmDSub_within_iff {a b : CvmF64} (ha : a.IsNormal) (hb : b.IsNormal) :
    (a.val + b.val = 0 ∨ InNormalRange (a.val + b.val) → (WithinUlp (a.val + b.val) (cvmDAdd a b) ↔ AddClose a b)) ∧
      (a.val - b.val = 0 ∨ InNormalRange (a.val - b.val) → (WithinUlp (a.val - b.val) (cvmDSub a b) ↔ AddClose a (cvmDNeg b))) := by
  refine ⟨fun hrange => within_cvmDAdd_iff ha hb hrange, fun hrange => ?_⟩
  rw [sub_eq_add_neg, ← val_cvmDNeg] at hrange ⊢
  exact within_cvmDAdd_iff ha (isNormal_cvmDNeg hb) hrange

/-- One. -/
def sampleOne : CvmF64 := ⟨0#32, 0x3FF00000#32⟩

/-- The double below one, negative. -/
def sampleBelowOne : CvmF64 := ⟨0xFFFFFFFF#32, 0xBFEFFFFF#32⟩

/-- The first number is 1. -/
theorem val_sampleOne : sampleOne.val = 1 := by
  have hexp : sampleOne.exp = 1023 := by decide
  have hsig : sampleOne.sig = 2 ^ 52 := by decide
  have hsign : sampleOne.sign = false := by decide
  rw [val, hexp, hsig, hsign]
  norm_num [signed]

/-- The second one is the negative of the number next below 1. -/
theorem val_sampleBelowOne : sampleBelowOne.val = -(1 - 2 ^ (-53 : ℤ)) := by
  have hexp : sampleBelowOne.exp = 1022 := by decide
  have hsig : sampleBelowOne.sig = 2 ^ 53 - 1 := by decide
  have hsign : sampleBelowOne.sign = true := by decide
  rw [val, hexp, hsig, hsign]
  norm_num [signed]

/-- Their sum is the distance of the two. -/
theorem sampleOne_sum : sampleOne.val + sampleBelowOne.val = 2 ^ (-53 : ℤ) := by
  rw [val_sampleOne, val_sampleBelowOne]
  ring

/-- It is a normal number. -/
theorem sampleOne_sum_range : InNormalRange (sampleOne.val + sampleBelowOne.val) := by
  rw [sampleOne_sum, InNormalRange, abs_of_pos (zpow_pos two_pos _)]
  exact ⟨zpow_le_zpow_right₀ one_le_two (by decide), zpow_lt_zpow_right₀ one_lt_two (by decide)⟩

/-- So is their difference. -/
theorem sampleOne_difference_range : InNormalRange (sampleOne.val - sampleBelowOne.val) := by
  have hle : (2 : ℚ) ^ (-53 : ℤ) ≤ 1 := zpow_le_one_of_nonpos₀ one_le_two (by decide)
  have hpos : (0 : ℚ) < 2 ^ (-53 : ℤ) := zpow_pos two_pos _
  have hlow : (2 : ℚ) ^ (-1022 : ℤ) ≤ 2 ^ (0 : ℤ) := zpow_le_zpow_right₀ one_le_two (by decide)
  have hhigh : (2 : ℚ) ^ (1 : ℤ) < 2 ^ (1024 : ℤ) := zpow_lt_zpow_right₀ one_lt_two (by decide)
  rw [zpow_zero] at hlow
  rw [zpow_one] at hhigh
  rw [val_sampleOne, val_sampleBelowOne, InNormalRange, abs_of_pos (by linarith)]
  exact ⟨le_trans hlow (by linarith), lt_of_le_of_lt (by linarith) hhigh⟩

theorem cvmDAdd_cvmDSub_within_iff_sampleOne :
    (WithinUlp (sampleOne.val + sampleBelowOne.val) (cvmDAdd sampleOne sampleBelowOne) ↔ AddClose sampleOne sampleBelowOne) ∧
      (WithinUlp (sampleOne.val - sampleBelowOne.val) (cvmDSub sampleOne sampleBelowOne) ↔ AddClose sampleOne (cvmDNeg sampleBelowOne)) :=
  ⟨(cvmDAdd_cvmDSub_within_iff (by decide) (by decide)).1 (Or.inr sampleOne_sum_range),
    (cvmDAdd_cvmDSub_within_iff (by decide) (by decide)).2 (Or.inr sampleOne_difference_range)⟩

/-- The double below one, taken from one: twice the exact difference. -/
theorem sampleOne_not_within : sampleOne.IsNormal ∧ sampleBelowOne.IsNormal ∧ InNormalRange (sampleOne.val + sampleBelowOne.val) ∧
    ¬WithinUlp (sampleOne.val + sampleBelowOne.val) (cvmDAdd sampleOne sampleBelowOne) := by
  refine ⟨by decide, by decide, sampleOne_sum_range, ?_⟩
  rw [within_cvmDAdd_iff (by decide) (by decide) (Or.inr sampleOne_sum_range), AddClose]
  rintro (hsign | hlarge | hlost)
  · exact absurd hsign (by decide)
  · have hmax : ((max sampleOne.exp sampleBelowOne.exp : ℕ) : ℤ) = 1023 := by decide
    rw [sampleOne_sum, hmax, abs_of_pos (zpow_pos two_pos _)] at hlarge
    have hle := (zpow_le_zpow_iff_right₀ one_lt_two).mp hlarge
    omega
  · exact absurd hlost (by decide)

end CronoVM
