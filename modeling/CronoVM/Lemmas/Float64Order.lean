import Mathlib.Data.EReal.Operations
import CronoVM.Lemmas.Float64Sum
import CronoVM.Runtime.Float64Compare

/-!
# The order of doubles

A double that is no NaN stands for an extended real number. Its bits without the sign are an integer that grows with its magnitude, so
that words are compared where numbers are meant.
-/

namespace CronoVM

open CvmF64 Precision

namespace CvmF64

/-! ## Numbers -/

/-- The bits without the sign. -/
def mag (x : CvmF64) : Nat := num (x.hi &&& 0x7FFFFFFF#32) x.lo

/-- The bits of the fraction. -/
def frac (x : CvmF64) : Nat := num (cvmDMhi x) x.lo

/-- The significand, without a leading one in a zero and a subnormal. -/
def digits (x : CvmF64) : Nat := if x.exp = 0 then x.frac else 2 ^ 52 + x.frac

/-- The exponent, the same in a subnormal as in the least normal numbers. -/
def scale (x : CvmF64) : Nat := max x.exp 1

/-- The magnitude of a finite double. -/
def absVal (x : CvmF64) : ℚ := (x.digits : ℚ) * 2 ^ ((x.scale : ℤ) - 1075)

/-- The magnitude of a double that is no NaN. -/
noncomputable def absReal (x : CvmF64) : EReal := if x.exp = 2047 then ⊤ else ((x.absVal : ℝ) : EReal)

/-- The number of a double that is no NaN. -/
noncomputable def ereal (x : CvmF64) : EReal := if x.sign = true then -x.absReal else x.absReal

/-- The extended real number a double stands for, none for a NaN. -/
noncomputable def real (x : CvmF64) : Option EReal := if cvmDIsnan x = true then none else some x.ereal

/-- The bits as an integer with a sign. -/
def key (x : CvmF64) : ℤ := if x.sign = true then -x.mag else x.mag

/-- The fraction has 52 bits. -/
theorem frac_lt (x : CvmF64) : x.frac < 2 ^ 52 := by
  have hlo := x.lo.isLt
  have hhi := x.toNat_mhi
  unfold frac num
  omega

/-- The magnitude as exponent and fraction. -/
theorem mag_eq (x : CvmF64) : x.mag = 2 ^ 52 * x.exp + x.frac := by
  have hmag := toNat_mag x
  unfold mag frac num
  rw [hmag]
  omega

/-- The magnitude as scale and digits, with one spelling for subnormals and normal numbers. -/
theorem mag_eq_digits (x : CvmF64) : x.mag + 2 ^ 52 = 2 ^ 52 * x.scale + x.digits := by
  rw [mag_eq, scale, digits]
  by_cases hexp : x.exp = 0
  · rw [if_pos hexp, hexp]
    simp only [zero_le, sup_of_le_right]
    omega
  · rw [if_neg hexp, max_eq_left (by omega)]
    omega

/-- The digits have 53 bits. -/
theorem digits_lt (x : CvmF64) : x.digits < 2 ^ 53 := by
  have hfrac := x.frac_lt
  unfold digits
  split <;> omega

/-- Where the exponents differ, the larger number has its leading one. -/
theorem le_digits {x : CvmF64} (h : 2 ≤ x.scale) : 2 ^ 52 ≤ x.digits := by
  unfold scale at h
  unfold digits
  split <;> omega

/-- Larger bits, larger number. -/
theorem absVal_lt {x y : CvmF64} (h : x.mag < y.mag) : x.absVal < y.absVal := by
  have hx := x.mag_eq_digits
  have hy := y.mag_eq_digits
  have hxd := x.digits_lt
  have hyd := y.digits_lt
  have hscale : x.scale ≤ y.scale := by
    by_contra hlt
    have hlead := le_digits (x := x) (by have := Nat.le_max_right y.exp 1; unfold scale at hlt ⊢; omega)
    omega
  unfold absVal
  rcases Nat.lt_or_eq_of_le hscale with hlt | heq
  · have hlead := le_digits (x := y) (by have := Nat.le_max_right x.exp 1; unfold scale at hlt ⊢; omega)
    have hxd' : (x.digits : ℚ) < 2 ^ 53 := by exact_mod_cast hxd
    have hlead' : (2 : ℚ) ^ 52 ≤ y.digits := by exact_mod_cast hlead
    have hpow : (2 : ℚ) ^ 53 * 2 ^ ((x.scale : ℤ) - 1075) = 2 ^ 52 * 2 ^ ((x.scale : ℤ) + 1 - 1075) := by
      rw [show (x.scale : ℤ) + 1 - 1075 = ((x.scale : ℤ) - 1075) + 1 by ring, zpow_add₀ two_ne_zero]
      ring
    calc (x.digits : ℚ) * 2 ^ ((x.scale : ℤ) - 1075) < 2 ^ 53 * 2 ^ ((x.scale : ℤ) - 1075) :=
          mul_lt_mul_of_pos_right hxd' (zpow_pos two_pos _)
      _ = 2 ^ 52 * 2 ^ ((x.scale : ℤ) + 1 - 1075) := hpow
      _ ≤ 2 ^ 52 * 2 ^ ((y.scale : ℤ) - 1075) :=
          mul_le_mul_of_nonneg_left (zpow_le_zpow_right₀ one_le_two (by omega)) (by positivity)
      _ ≤ y.digits * 2 ^ ((y.scale : ℤ) - 1075) := mul_le_mul_of_nonneg_right hlead' (zpow_pos two_pos _).le
  · have hdigits : (x.digits : ℚ) < y.digits := by exact_mod_cast (by omega : x.digits < y.digits)
    rw [heq]
    exact mul_lt_mul_of_pos_right hdigits (zpow_pos two_pos _)

/-- The magnitude gives the absolute value. -/
theorem absVal_eq {x y : CvmF64} (h : x.mag = y.mag) : x.absVal = y.absVal := by
  have hx := x.mag_eq
  have hy := y.mag_eq
  have hxf := x.frac_lt
  have hyf := y.frac_lt
  have hexp : x.exp = y.exp := by omega
  have hfrac : x.frac = y.frac := by omega
  rw [absVal, absVal, digits, digits, scale, scale, hexp, hfrac]

/-- The magnitude gives the exponent. -/
theorem exp_of_mag_eq {x y : CvmF64} (h : x.mag = y.mag) : x.exp = y.exp := by
  have hx := x.mag_eq
  have hy := y.mag_eq
  have hxf := x.frac_lt
  have hyf := y.frac_lt
  omega

/-- Without NaNs nothing is above the infinities. -/
theorem frac_of_not_nan {x : CvmF64} (h : cvmDIsnan x = false) (hexp : x.exp = 2047) : x.frac = 0 := by
  have hmax : (cvmDExp x == 0x7FF#32) = true := beq_iff_eq.mpr (BitVec.eq_of_toNat_eq hexp)
  rw [cvmDIsnan, hmax, Bool.true_and, Bool.or_eq_false_iff, bne_eq_false_iff_eq, bne_eq_false_iff_eq] at h
  rw [frac, h.1, h.2]
  rfl

/-- A smaller magnitude is a smaller absolute value, infinity included. -/
theorem absReal_lt {x y : CvmF64} (hy : cvmDIsnan y = false) (h : x.mag < y.mag) : x.absReal < y.absReal := by
  have hxm := x.mag_eq
  have hym := y.mag_eq
  have hyexp := y.exp_lt
  have hyf := y.frac_lt
  have hfinite : x.exp ≠ 2047 := by
    intro hexp
    have hzero := frac_of_not_nan hy (by omega)
    omega
  rw [absReal, absReal, if_neg hfinite]
  by_cases hinf : y.exp = 2047
  · rw [if_pos hinf]
    exact EReal.coe_lt_top _
  · rw [if_neg hinf, EReal.coe_lt_coe_iff, Rat.cast_lt]
    exact absVal_lt h

/-- Equal magnitudes are equal absolute values. -/
theorem absReal_eq {x y : CvmF64} (h : x.mag = y.mag) : x.absReal = y.absReal := by
  rw [absReal, absReal, exp_of_mag_eq h, absVal_eq h]

/-- The magnitude zero is the number zero. -/
theorem absReal_of_mag_eq_zero {x : CvmF64} (h : x.mag = 0) : x.absReal = 0 := by
  have hmag := x.mag_eq
  have hexp : x.exp = 0 := by omega
  have hfrac : x.frac = 0 := by omega
  rw [absReal, hexp, if_neg (by decide), absVal, digits, if_pos hexp, hfrac, Nat.cast_zero, zero_mul, Rat.cast_zero, EReal.coe_zero]

/-- The other magnitudes are positive. -/
theorem absReal_pos {x : CvmF64} (hx : cvmDIsnan x = false) (h : 0 < x.mag) : 0 < x.absReal := by
  have hzero : cvmDZero.mag = 0 := by decide
  have hlt := absReal_lt (x := cvmDZero) hx (hzero ▸ h)
  rwa [absReal_of_mag_eq_zero hzero] at hlt

/-- An absolute value is not negative. -/
theorem absReal_nonneg {x : CvmF64} (hx : cvmDIsnan x = false) : 0 ≤ x.absReal := by
  rcases Nat.eq_zero_or_pos x.mag with hzero | hpos
  · exact (absReal_of_mag_eq_zero hzero).ge
  · exact (absReal_pos hx hpos).le

/-- A smaller key is a smaller number. -/
theorem ereal_lt {x y : CvmF64} (hx : cvmDIsnan x = false) (hy : cvmDIsnan y = false) (h : x.key < y.key) : x.ereal < y.ereal := by
  unfold key at h
  unfold ereal
  by_cases hsx : x.sign = true <;> by_cases hsy : y.sign = true
  · rw [if_pos hsx, if_pos hsy] at h ⊢
    exact EReal.neg_lt_neg_iff.mpr (absReal_lt hx (by omega))
  · rw [if_pos hsx, if_neg hsy] at h ⊢
    rcases Nat.eq_zero_or_pos x.mag with hzero | hpos
    · rw [absReal_of_mag_eq_zero hzero, neg_zero]
      exact absReal_pos hy (by omega)
    · have hneg : -x.absReal < 0 := by
        rw [← neg_zero, EReal.neg_lt_neg_iff]
        exact absReal_pos hx hpos
      exact lt_of_lt_of_le hneg (absReal_nonneg hy)
  · rw [if_neg hsx, if_pos hsy] at h
    omega
  · rw [if_neg hsx, if_neg hsy] at h ⊢
    exact absReal_lt hy (by omega)

/-- Equal keys are equal numbers; both zeros have one key. -/
theorem ereal_eq {x y : CvmF64} (h : x.key = y.key) : x.ereal = y.ereal := by
  unfold key at h
  unfold ereal
  by_cases hsx : x.sign = true <;> by_cases hsy : y.sign = true
  · rw [if_pos hsx, if_pos hsy] at h ⊢
    rw [absReal_eq (by omega : x.mag = y.mag)]
  · rw [if_pos hsx, if_neg hsy] at h ⊢
    rw [absReal_of_mag_eq_zero (by omega : x.mag = 0), absReal_of_mag_eq_zero (by omega : y.mag = 0), neg_zero]
  · rw [if_neg hsx, if_pos hsy] at h ⊢
    rw [absReal_of_mag_eq_zero (by omega : x.mag = 0), absReal_of_mag_eq_zero (by omega : y.mag = 0), neg_zero]
  · rw [if_neg hsx, if_neg hsy] at h ⊢
    rw [absReal_eq (by omega : x.mag = y.mag)]

/-- The keys are in the order of the numbers. -/
theorem key_lt_iff {x y : CvmF64} (hx : cvmDIsnan x = false) (hy : cvmDIsnan y = false) : x.key < y.key ↔ x.ereal < y.ereal := by
  refine ⟨ereal_lt hx hy, fun h => ?_⟩
  rcases lt_trichotomy x.key y.key with hlt | heq | hgt
  · exact hlt
  · exact absurd (ereal_eq heq) h.ne
  · exact absurd (ereal_lt hy hx hgt) h.asymm

/-- The keys of two numbers are equal just when they are. -/
theorem key_eq_iff {x y : CvmF64} (hx : cvmDIsnan x = false) (hy : cvmDIsnan y = false) : x.key = y.key ↔ x.ereal = y.ereal := by
  refine ⟨ereal_eq, fun h => ?_⟩
  rcases lt_trichotomy x.key y.key with hlt | heq | hgt
  · exact absurd h (ereal_lt hx hy hlt).ne
  · exact heq
  · exact absurd h (ereal_lt hy hx hgt).ne'

/-! ## Words -/

/-- The key, by the word of the sign. -/
theorem key_cases (x : CvmF64) : (cvmDSign x = 0#32 ∧ x.key = x.mag) ∨ (cvmDSign x = 1#32 ∧ x.key = -x.mag) := by
  rcases x.sign_cases with h | h
  · have hsign : ¬x.sign = true := by
      rw [sign, h]
      decide
    exact Or.inl ⟨h, if_neg hsign⟩
  · have hsign : x.sign = true := by
      rw [sign, h]
      rfl
    exact Or.inr ⟨h, if_pos hsign⟩

/-- The words of a double are its sign and the other bits. -/
theorem num_words (x : CvmF64) : num x.hi x.lo = 2 ^ 63 * (cvmDSign x).toNat + x.mag := by
  have hhi := x.toNat_hi
  have hmag := toNat_mag x
  unfold mag num
  omega

/-- The zeros are the numbers of magnitude zero. -/
theorem isZero_iff (x : CvmF64) : cvmDIszero x = true ↔ x.mag = 0 := by
  have hmag := x.mag_eq
  have hexp : cvmDExp x = 0#32 ↔ x.exp = 0 := ⟨congrArg BitVec.toNat, fun h => BitVec.eq_of_toNat_eq h⟩
  have hmhi : cvmDMhi x = 0#32 ↔ (cvmDMhi x).toNat = 0 := ⟨congrArg BitVec.toNat, fun h => BitVec.eq_of_toNat_eq h⟩
  have hlo : x.lo = 0#32 ↔ x.lo.toNat = 0 := ⟨congrArg BitVec.toNat, fun h => BitVec.eq_of_toNat_eq h⟩
  rw [cvmDIszero, Bool.and_eq_true, Bool.and_eq_true, beq_iff_eq, beq_iff_eq, beq_iff_eq, hexp, hmhi, hlo]
  unfold frac num at hmag
  omega

end CvmF64

/-! ## Comparisons -/

/-- The test for two zeros. -/
theorem both_zero_iff (a b : CvmF64) : (cvmDIszero a && cvmDIszero b) = true ↔ a.mag = 0 ∧ b.mag = 0 := by
  rw [Bool.and_eq_true_iff, a.isZero_iff, b.isZero_iff]

/-- The runtime's `<` compares the keys. -/
theorem cvmDLt_eq {a b : CvmF64} (ha : cvmDIsnan a = false) (hb : cvmDIsnan b = false) : cvmDLt a b = decide (a.key < b.key) := by
  have hna := a.num_words
  have hnb := b.num_words
  have hka := a.key_cases
  have hkb := b.key_cases
  have hgt : (if a.hi ≠ b.hi then decide (a.hi > b.hi) else decide (a.lo > b.lo)) = decide (num b.hi b.lo < num a.hi a.lo) := by
    rw [← decide_num_lt]
    exact if_congr ne_comm rfl rfl
  rw [cvmDLt, ha, hb, Bool.or_self, if_neg Bool.false_ne_true]
  by_cases hzero : a.mag = 0 ∧ b.mag = 0
  · rw [if_pos ((both_zero_iff a b).mpr hzero), eq_comm, decide_eq_false_iff_not]
    omega
  rw [if_neg (mt (both_zero_iff a b).mp hzero)]
  dsimp only
  rw [decide_num_lt, hgt, hna, hnb]
  rcases hka with ⟨hsa, hka⟩ | ⟨hsa, hka⟩ <;> rcases hkb with ⟨hsb, hkb⟩ | ⟨hsb, hkb⟩
  · rw [hsa, hsb, hka, hkb, if_neg (by decide), if_pos rfl, decide_eq_decide]
    omega
  · rw [hsa, hsb, hka, hkb, if_pos (by decide), decide_eq_decide]
    exact iff_of_false (by decide) (by omega)
  · rw [hsa, hsb, hka, hkb, if_pos (by decide), decide_eq_decide]
    exact iff_of_true (by decide) (by omega)
  · rw [hsa, hsb, hka, hkb, if_neg (by decide), if_neg (by decide), decide_eq_decide]
    omega

/-- The runtime's `==` compares the keys. -/
theorem cvmDEq_eq {a b : CvmF64} (ha : cvmDIsnan a = false) (hb : cvmDIsnan b = false) : cvmDEq a b = decide (a.key = b.key) := by
  have hna := a.num_words
  have hnb := b.num_words
  have hka := a.key_cases
  have hkb := b.key_cases
  rw [cvmDEq, ha, hb, Bool.or_self, if_neg Bool.false_ne_true]
  by_cases hzero : a.mag = 0 ∧ b.mag = 0
  · rw [if_pos ((both_zero_iff a b).mpr hzero), eq_comm, decide_eq_true_iff]
    omega
  have hwords : (a.lo = b.lo ∧ a.hi = b.hi) ↔ num a.hi a.lo = num b.hi b.lo := by
    have hal := a.lo.isLt
    have hbl := b.lo.isLt
    rw [← BitVec.toNat_inj, ← BitVec.toNat_inj]
    unfold num
    omega
  have hma := a.mag_eq
  have hmb := b.mag_eq
  have hea := a.exp_lt
  have heb := b.exp_lt
  have hfa := a.frac_lt
  have hfb := b.frac_lt
  have h0 : (0#32 : Word).toNat = 0 := rfl
  have h1 : (1#32 : Word).toNat = 1 := rfl
  rw [if_neg (mt (both_zero_iff a b).mp hzero), Bool.eq_iff_iff, Bool.and_eq_true_iff, beq_iff_eq, beq_iff_eq, hwords, hna, hnb,
    decide_eq_true_eq]
  rcases hka with ⟨hsa, hka⟩ | ⟨hsa, hka⟩ <;> rcases hkb with ⟨hsb, hkb⟩ | ⟨hsb, hkb⟩ <;> rw [hsa, hsb, hka, hkb] <;> omega

/-! ## The helpers -/

/-- What a helper tests of two numbers that are no NaNs. -/
def FloatHelper.relates : FloatHelper → EReal → EReal → Prop
  | .feq, x, y => x = y
  | .fne, x, y => x ≠ y
  | .flt, x, y => x < y
  | .fle, x, y => x ≤ y
  | .fgt, x, y => y < x
  | .fge, x, y => y ≤ x
  | .ford, _, _ => True
  | .fone, x, y => x ≠ y

/-- The runtime's `!=` is the negation. -/
theorem cvmDNe_eq_not (a b : CvmF64) : cvmDNe a b = !cvmDEq a b := by
  unfold cvmDNe cvmDEq
  split
  · rfl
  · split
    · rfl
    · rw [Bool.not_and]
      rfl

/-- Without a NaN a helper tests its relation. -/
theorem FloatHelper.eval_iff (h : FloatHelper) {a b : CvmF64} (ha : cvmDIsnan a = false) (hb : cvmDIsnan b = false) :
    h.eval a b = true ↔ h.relates a.ereal b.ereal := by
  have hlt : ∀ {x y : CvmF64}, cvmDIsnan x = false → cvmDIsnan y = false → (cvmDLt x y = true ↔ x.ereal < y.ereal) := fun hx hy => by
    rw [cvmDLt_eq hx hy, decide_eq_true_eq, key_lt_iff hx hy]
  have heq : ∀ {x y : CvmF64}, cvmDIsnan x = false → cvmDIsnan y = false → (cvmDEq x y = true ↔ x.ereal = y.ereal) := fun hx hy => by
    rw [cvmDEq_eq hx hy, decide_eq_true_eq, key_eq_iff hx hy]
  have hle : ∀ {x y : CvmF64}, cvmDIsnan x = false → cvmDIsnan y = false → (cvmDLe x y = true ↔ x.ereal ≤ y.ereal) := fun hx hy => by
    rw [cvmDLe, Bool.or_eq_true_iff, hlt hx hy, heq hx hy, le_iff_lt_or_eq]
  cases h with
  | feq => exact heq ha hb
  | fne =>
    change cvmDNe a b = true ↔ a.ereal ≠ b.ereal
    rw [cvmDNe_eq_not, Bool.not_eq_true', ← Bool.not_eq_true, heq ha hb]
  | flt => exact hlt ha hb
  | fle => exact hle ha hb
  | fgt => exact hlt hb ha
  | fge => exact hle hb ha
  | ford =>
    change (!cvmDIsnan a && !cvmDIsnan b) = true ↔ True
    rw [ha, hb]
    exact iff_of_true rfl trivial
  | fone =>
    change (cvmDLt a b || cvmDLt b a) = true ↔ a.ereal ≠ b.ereal
    rw [Bool.or_eq_true_iff, hlt ha hb, hlt hb ha]
    exact lt_or_lt_iff_ne

/-- With a NaN only the test for inequality succeeds. -/
theorem FloatHelper.eval_of_nan (h : FloatHelper) {a b : CvmF64} (hnan : (cvmDIsnan a || cvmDIsnan b) = true) :
    h.eval a b = decide (h = .fne) := by
  have hnan' : (cvmDIsnan b || cvmDIsnan a) = true := (Bool.or_comm _ _).trans hnan
  have hlt : cvmDLt a b = false := if_pos hnan
  have hgt : cvmDLt b a = false := if_pos hnan'
  have heq : cvmDEq a b = false := if_pos hnan
  have heq' : cvmDEq b a = false := if_pos hnan'
  cases h with
  | feq => exact heq
  | fne => exact if_pos hnan
  | flt => exact hlt
  | fle =>
    change (cvmDLt a b || cvmDEq a b) = _
    rw [hlt, heq]
    rfl
  | fgt => exact hgt
  | fge =>
    change (cvmDLt b a || cvmDEq b a) = _
    rw [hgt, heq']
    rfl
  | ford =>
    change (!cvmDIsnan a && !cvmDIsnan b) = _
    rw [← Bool.not_or, hnan]
    rfl
  | fone =>
    change (cvmDLt a b || cvmDLt b a) = _
    rw [hlt, hgt]
    rfl

end CronoVM
