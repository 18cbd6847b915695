import CronoVM.Lemmas.Float64Add

/-!
# The error of a sum

The distance of a sum or a difference of doubles from the exact one, against the spacing of the doubles there.
-/

namespace CronoVM

open CvmF64 Precision TwoWord

/-! ## Negation -/

/-- A mask distributes over an exclusive or. -/
theorem xor_and (x y z : Word) : (x ^^^ y) &&& z = (x &&& z) ^^^ (y &&& z) := by
  apply BitVec.eq_of_getLsbD_eq
  intro i _
  rw [BitVec.getLsbD_and, BitVec.getLsbD_xor, BitVec.getLsbD_xor, BitVec.getLsbD_and, BitVec.getLsbD_and, Bool.and_xor_distrib_right]

/-- A negation keeps the exponent. -/
theorem exp_cvmDNeg (x : CvmF64) : cvmDExp (cvmDNeg x) = cvmDExp x := by
  have hmask : (0x80000000#32 >>> 20 : Word) &&& 0x7FF#32 = 0#32 := by decide
  rw [cvmDExp, cvmDNeg, BitVec.ushiftRight_xor_distrib, xor_and, hmask, BitVec.xor_zero]
  rfl

/-- A negation keeps the significand. -/
theorem mhi_cvmDNeg (x : CvmF64) : cvmDMhi (cvmDNeg x) = cvmDMhi x := by
  have hmask : (0x80000000#32 : Word) &&& 0x000FFFFF#32 = 0#32 := by decide
  rw [cvmDMhi, cvmDNeg, xor_and, hmask, BitVec.xor_zero]
  rfl

/-- A negation flips the sign. -/
theorem sign_cvmDNeg (x : CvmF64) : (cvmDNeg x).sign = !x.sign := by
  have hmask : (0x80000000#32 >>> 31 : Word) &&& 1#32 = 1#32 := by decide
  have hflip : cvmDSign (cvmDNeg x) = cvmDSign x ^^^ 1#32 := by
    rw [cvmDSign, cvmDNeg, BitVec.ushiftRight_xor_distrib, xor_and, hmask]
    rfl
  rw [sign, sign, hflip]
  rcases x.sign_cases with hx | hx <;> rw [hx] <;> decide

/-- Negation flips the sign and nothing else. -/
theorem val_cvmDNeg (x : CvmF64) : (cvmDNeg x).val = -x.val := by
  have hsig : (cvmDNeg x).sig = x.sig := by
    rw [sig, sig, full, full, mhi_cvmDNeg]
    rfl
  rw [val, val, sign_cvmDNeg, signed_not, hsig, CvmF64.exp, exp_cvmDNeg]
  rfl

/-- The negation of a normal number is normal. -/
theorem isNormal_cvmDNeg {x : CvmF64} (h : x.IsNormal) : (cvmDNeg x).IsNormal := by
  rw [IsNormal, CvmF64.exp, exp_cvmDNeg]
  exact h

/-! ## Errors of significands -/

section errors

variable {a b d n k : Nat} {e : ℤ}

/-- The shifted significand, and what the shift drops. -/
theorem div_two_pow_cast (b d : Nat) : (b : ℚ) / 2 ^ d = (b / 2 ^ d : ℕ) + ((b % 2 ^ d : ℕ) : ℚ) / 2 ^ d := by
  have hsplit : ((2 ^ d * (b / 2 ^ d) + b % 2 ^ d : ℕ) : ℚ) = b := by rw [Nat.div_add_mod]
  have hd : (2 : ℚ) ^ d ≠ 0 := pow_ne_zero d two_ne_zero
  rw [← hsplit, Nat.cast_add, Nat.cast_mul, Nat.cast_pow, Nat.cast_two, add_div, mul_div_cancel_left₀ _ hd]

/-- What an alignment drops is less than one unit. -/
theorem dropped_lt_one (b d : Nat) : ((b % 2 ^ d : ℕ) : ℚ) / 2 ^ d < 1 := by
  rw [div_lt_one (pow_pos two_pos d)]
  exact_mod_cast Nat.mod_lt b (Nat.two_pow_pos d)

/-- What an alignment drops is not negative. -/
theorem dropped_nonneg (b d : Nat) : 0 ≤ ((b % 2 ^ d : ℕ) : ℚ) / 2 ^ d := by positivity

/-- A difference whose smaller operand is cut is too large by what is cut off. -/
theorem sub_exact (hle : b / 2 ^ d ≤ a) : ((a - b / 2 ^ d : ℕ) : ℚ) * 2 ^ e - ((a : ℚ) - b / 2 ^ d) * 2 ^ e =
    ((b % 2 ^ d : ℕ) : ℚ) / 2 ^ d * 2 ^ e := by
  rw [div_two_pow_cast b d, Nat.cast_sub hle]
  ring

/-- A difference of significands is less than one unit off if and only if nothing cancels or less than half a unit is cut off. -/
theorem sub_error_iff (ha : 2 ^ 52 ≤ a) (hb : b < 2 ^ 53) (hle : b / 2 ^ d ≤ a) (hpos : (b : ℚ) / 2 ^ d < a) :
    |((a - b / 2 ^ d : ℕ) : ℚ) * 2 ^ e - ((a : ℚ) - b / 2 ^ d) * 2 ^ e| < ulp 53 (((a : ℚ) - b / 2 ^ d) * 2 ^ e) ↔
      2 ^ (52 + e) ≤ ((a : ℚ) - b / 2 ^ d) * 2 ^ e ∨ 2 * (b % 2 ^ d) < 2 ^ d := by
  have hunit : (0 : ℚ) < 2 ^ e := zpow_pos two_pos e
  have hd : (0 : ℚ) < 2 ^ d := pow_pos two_pos d
  have hdrop := dropped_nonneg b d
  have hdrop' := dropped_lt_one b d
  have hdiff : 0 < ((a : ℚ) - b / 2 ^ d) * 2 ^ e := mul_pos (sub_pos.mpr hpos) hunit
  have hscale : ∀ m : ℤ, (2 : ℚ) ^ (m + e) = 2 ^ m * 2 ^ e := fun m => zpow_add₀ two_ne_zero m e
  rw [sub_exact hle, abs_of_nonneg (by positivity)]
  by_cases hbig : (2 : ℚ) ^ (52 + e) ≤ ((a : ℚ) - b / 2 ^ d) * 2 ^ e
  · refine iff_of_true ?_ (Or.inl hbig)
    have hulp := le_ulp 53 (x := ((a : ℚ) - b / 2 ^ d) * 2 ^ e) (by rwa [abs_of_pos hdiff])
    rw [show (52 : ℤ) + e + 1 - (53 : ℕ) = 0 + e by push_cast; ring, hscale, zpow_zero] at hulp
    exact lt_of_lt_of_le (mul_lt_mul_of_pos_right hdrop' hunit) hulp
  · have hsmall := lt_of_not_ge hbig
    have hulp := ulp_le 53 hdiff.ne' (by rwa [abs_of_pos hdiff])
    rw [show (52 : ℤ) + e - (53 : ℕ) = -1 + e by push_cast; ring, hscale] at hulp
    have hhalf : 2 * (b % 2 ^ d) < 2 ^ d ↔ ((b % 2 ^ d : ℕ) : ℚ) / 2 ^ d < 2 ^ (-1 : ℤ) := by
      rw [zpow_neg_one, div_lt_iff₀ hd, inv_mul_eq_div, lt_div_iff₀ two_pos, mul_comm]
      norm_cast
    rw [hhalf]
    constructor
    · intro herr
      exact Or.inr (lt_of_mul_lt_mul_right (lt_of_lt_of_le herr hulp) hunit.le)
    · intro hlt
      have hlt' := hlt.resolve_left hbig
      rcases Nat.lt_or_ge d 2 with hgap | hgap
      · have hzero : b % 2 ^ d = 0 := by
          have hle2 : 2 ^ d ≤ 2 ^ 1 := Nat.pow_le_pow_right Nat.two_pos (by omega)
          have hnat := hhalf.mpr hlt'
          omega
        rw [hzero, Nat.cast_zero, zero_div, zero_mul]
        exact ulp_pos 53 _
      · have hfour : (2 : ℚ) ^ 2 ≤ 2 ^ d := pow_le_pow_right₀ one_le_two hgap
        have hb' : (b : ℚ) < 2 ^ 53 := by exact_mod_cast hb
        have ha' : (2 : ℚ) ^ 52 ≤ a := by exact_mod_cast ha
        have hquarter : (b : ℚ) / 2 ^ d < 2 ^ 51 := by
          rw [div_lt_iff₀ hd]
          linarith
        have hlow : (2 : ℚ) ^ (51 + e) ≤ ((a : ℚ) - b / 2 ^ d) * 2 ^ e := by
          rw [hscale]
          refine mul_le_mul_of_nonneg_right ?_ hunit.le
          rw [show (2 : ℚ) ^ (51 : ℤ) = 2 ^ 51 from rfl]
          linarith
        have hulp' := le_ulp 53 (x := ((a : ℚ) - b / 2 ^ d) * 2 ^ e) (by rwa [abs_of_pos hdiff])
        rw [show (51 : ℤ) + e + 1 - (53 : ℕ) = -1 + e by push_cast; ring, hscale] at hulp'
        exact lt_of_lt_of_le (mul_lt_mul_of_pos_right hlt' hunit) hulp'

end errors

/-! ## Ordered operands -/

/-- The magnitude of `a` is not below that of `b`. -/
def Dominates (a b : CvmF64) : Prop := b.exp < a.exp ∨ (b.exp = a.exp ∧ b.sig ≤ a.sig)

/-- The larger operand has the larger exponent. -/
theorem Dominates.exp_le {a b : CvmF64} (h : Dominates a b) : b.exp ≤ a.exp := by
  rcases h with h | ⟨h, -⟩
  · exact Nat.le_of_lt h
  · exact Nat.le_of_eq h

/-- The significand of the smaller operand is not above that of the larger one once it is aligned. -/
theorem Dominates.aligned_le {a b : CvmF64} (h : Dominates a b) : b.sig ≤ a.sig * 2 ^ (a.exp - b.exp) := by
  rcases h with h | ⟨h, hle⟩
  · have halo := a.sig_lo
    have hbhi := b.sig_hi
    calc b.sig ≤ 2 ^ 52 * 2 ^ 1 := Nat.le_of_lt hbhi
      _ ≤ a.sig * 2 ^ (a.exp - b.exp) := Nat.mul_le_mul halo (Nat.pow_le_pow_right Nat.two_pos (by omega))
  · rw [h, Nat.sub_self, Nat.pow_zero, Nat.mul_one]
    exact hle

/-- The upper word without the sign. -/
theorem toNat_mag (x : CvmF64) : (x.hi &&& 0x7FFFFFFF#32).toNat = 2 ^ 20 * x.exp + (cvmDMhi x).toNat := by
  have hmask : (x.hi &&& 0x7FFFFFFF#32).toNat = x.hi.toNat % 2 ^ 31 := toNat_and_mask x.hi 31 (by decide)
  have hhi := x.toNat_hi
  have hexp := x.exp_lt
  have hmhi := x.toNat_mhi
  rw [hmask]
  omega

/-- The operands are put in order. -/
theorem cvmDAdd_ordered {a b : CvmF64} (ha : a.IsNormal) (hb : b.IsNormal) :
    (Dominates a b ∧ cvmDAdd a b = cvmDAddOrdered a b) ∨ (Dominates b a ∧ cvmDAdd a b = cvmDAddOrdered b a) := by
  have hma := toNat_mag a
  have hmb := toNat_mag b
  have hfa := a.toNat_full
  have hfb := b.toNat_full
  have hha := a.toNat_mhi
  have hhb := b.toNat_mhi
  have hla := a.lo.isLt
  have hlb := b.lo.isLt
  have hadd : cvmDAdd a b = if a.hi &&& 0x7FFFFFFF#32 < b.hi &&& 0x7FFFFFFF#32 ∨
      (a.hi &&& 0x7FFFFFFF#32 = b.hi &&& 0x7FFFFFFF#32 ∧ a.lo < b.lo) then cvmDAddOrdered b a else cvmDAddOrdered a b := by
    rw [cvmDAdd, ha.not_nan, hb.not_nan, ha.not_inf, hb.not_inf, ha.not_zero, hb.not_zero]
    rfl
  rw [hadd]
  simp only [BitVec.lt_def, ← BitVec.toNat_inj]
  unfold Dominates sig
  split
  · exact Or.inr ⟨by omega, rfl⟩
  · exact Or.inl ⟨by omega, rfl⟩

/-- A smaller operand, aligned. -/
theorem val_aligned {a b : CvmF64} (h : b.exp ≤ a.exp) :
    b.val = signed b.sign ((b.sig : ℚ) / 2 ^ (a.exp - b.exp) * 2 ^ ((a.exp : ℤ) - 1075)) := by
  have hscale : (2 : ℚ) ^ ((b.exp : ℤ) - 1075) = 2 ^ ((a.exp : ℤ) - 1075) / 2 ^ (a.exp - b.exp) := by
    rw [← zpow_natCast, ← zpow_sub₀ two_ne_zero, Nat.cast_sub h]
    congr 1
    ring
  rw [val, hscale, div_mul_eq_mul_div, mul_div_assoc]

/-- Equal sign words are equal signs. -/
theorem sign_eq_iff (a b : CvmF64) : cvmDSign a = cvmDSign b ↔ a.sign = b.sign := by
  unfold sign
  rcases a.sign_cases with ha | ha <;> rcases b.sign_cases with hb | hb <;> rw [ha, hb] <;> decide

/-- The addition with its larger operand first. -/
theorem cvmDAddOrdered_eq (a b : CvmF64) : cvmDAddOrdered a b =
    if cvmDExp a - cvmDExp b ≥ 64#32 then a
    else if cvmDSign a != cvmDSign b then
      cvmDSubAligned (cvmDSign a) (cvmDExp a) a.full a.lo (cvmDAlign (cvmDExp a - cvmDExp b) b.full b.lo).mHi
        (cvmDAlign (cvmDExp a - cvmDExp b) b.full b.lo).mLo
    else cvmDAddAligned (cvmDSign a) (cvmDExp a) a.full a.lo (cvmDAlign (cvmDExp a - cvmDExp b) b.full b.lo).mHi
      (cvmDAlign (cvmDExp a - cvmDExp b) b.full b.lo).mLo := rfl

section ordered

variable {a b : CvmF64} (h : b.exp ≤ a.exp)
include h

/-- The shift of the alignment is the difference of the exponents. -/
theorem toNat_expDiff : (cvmDExp a - cvmDExp b).toNat = a.exp - b.exp := BitVec.toNat_sub_of_le (BitVec.le_def.mpr h)

/-- The smaller significand, aligned. -/
theorem num_aligned : num (cvmDAlign (cvmDExp a - cvmDExp b) b.full b.lo).mHi (cvmDAlign (cvmDExp a - cvmDExp b) b.full b.lo).mLo =
    b.sig / 2 ^ (a.exp - b.exp) := by
  rw [cvmDAlign_num, toNat_expDiff h]
  rfl

/-- An operand that is 64 binary places below is dropped whole. -/
theorem aligned_eq_zero (hge : cvmDExp a - cvmDExp b ≥ 64#32) : b.sig / 2 ^ (a.exp - b.exp) = 0 := by
  have hle : 64 ≤ a.exp - b.exp := by
    rw [← toNat_expDiff h]
    exact BitVec.le_def.mp hge
  exact Nat.div_eq_of_lt (Nat.lt_of_lt_of_le b.sig_hi (Nat.pow_le_pow_right Nat.two_pos (by omega)))

/-- Equal magnitudes of different signs cancel. -/
theorem cvmDAddOrdered_cancel (hsign : a.sign ≠ b.sign) (heq : a.sig = b.sig / 2 ^ (a.exp - b.exp)) : cvmDAddOrdered a b = cvmDZero := by
  have halo := a.sig_lo
  rw [cvmDAddOrdered_eq]
  by_cases hge : cvmDExp a - cvmDExp b ≥ 64#32
  · have hzero := aligned_eq_zero h hge
    omega
  · have hsigns : (cvmDSign a != cvmDSign b) = true := bne_iff_ne.mpr (mt (sign_eq_iff a b).mp hsign)
    rw [if_neg hge, hsigns, if_pos rfl]
    have hnum : num a.full a.lo = _ := heq.trans (num_aligned h).symm
    rw [num_eq_toNat, num_eq_toNat] at hnum
    obtain ⟨hhi, hlo⟩ := (append_inj (w := 32)).mp (BitVec.eq_of_toNat_eq hnum)
    rw [← hhi, ← hlo]
    unfold cvmDSubAligned
    dsimp only
    rw [BitVec.sub_self, BitVec.sub_self, if_neg (BitVec.lt_irrefl _), if_pos ⟨rfl, rfl⟩]

variable (ha : a.IsNormal)
include ha

/-- The sum of operands of one sign. -/
theorem cvmDAddOrdered_add (hsign : a.sign = b.sign) {n : Nat} (hn : a.sig + b.sig / 2 ^ (a.exp - b.exp) = n) :
    ∃ k : Nat, 2 ^ 52 ≤ n / 2 ^ k ∧ n / 2 ^ k < 2 ^ 53 ∧ (a.exp + k < 2047 → (cvmDAddOrdered a b).IsNormal ∧
      (cvmDAddOrdered a b).val = signed a.sign (((n / 2 ^ k : ℕ) : ℚ) * 2 ^ ((a.exp : ℤ) - 1075 + k))) := by
  have halo := a.sig_lo
  have hahi := a.sig_hi
  have hbhi := b.sig_hi
  have hsmall := Nat.div_le_self b.sig (2 ^ (a.exp - b.exp))
  rw [cvmDAddOrdered_eq]
  by_cases hge : cvmDExp a - cvmDExp b ≥ 64#32
  · have hzero := aligned_eq_zero h hge
    rw [if_pos hge]
    refine ⟨0, by omega, by omega, fun _ => ⟨ha, ?_⟩⟩
    rw [← hn, hzero, Nat.add_zero, Nat.pow_zero, Nat.div_one, Nat.cast_zero, add_zero]
    rfl
  · have hsigns : (cvmDSign a != cvmDSign b) = false := bne_eq_false_iff_eq.mpr ((sign_eq_iff a b).mpr hsign)
    rw [if_neg hge, hsigns, if_neg Bool.false_ne_true]
    have hsum : num a.full a.lo + num (cvmDAlign (cvmDExp a - cvmDExp b) b.full b.lo).mHi
        (cvmDAlign (cvmDExp a - cvmDExp b) b.full b.lo).mLo = n := by
      rw [num_aligned h]
      exact hn
    obtain ⟨k, hlow, hhigh, -, hval⟩ := cvmDAddAligned_val a.toNat_sign_le ha.1 ha.2 a.sig_lo hsum (by omega)
    refine ⟨k, hlow, hhigh, fun hk => ?_⟩
    obtain ⟨hnormal, hval⟩ := hval hk
    refine ⟨hnormal, hval.trans ?_⟩
    rw [show (a.exp : ℤ) - 1075 + k = a.exp + k - 1075 by ring]
    rfl

/-- The difference of operands of different signs. -/
theorem cvmDAddOrdered_sub (hsign : a.sign ≠ b.sign) {n : Nat} (hle : b.sig / 2 ^ (a.exp - b.exp) ≤ a.sig)
    (hn : a.sig - b.sig / 2 ^ (a.exp - b.exp) = n) (hne : n ≠ 0) :
    ∃ k : Nat, n * 2 ^ k < 2 ^ 53 ∧ (k < a.exp → (cvmDAddOrdered a b).IsNormal ∧
      (cvmDAddOrdered a b).val = signed a.sign ((n : ℚ) * 2 ^ ((a.exp : ℤ) - 1075))) := by
  have hahi := a.sig_hi
  rw [cvmDAddOrdered_eq]
  by_cases hge : cvmDExp a - cvmDExp b ≥ 64#32
  · have hzero := aligned_eq_zero h hge
    rw [if_pos hge]
    refine ⟨0, by omega, fun _ => ⟨ha, ?_⟩⟩
    rw [← hn, hzero, Nat.sub_zero]
    rfl
  · have hsigns : (cvmDSign a != cvmDSign b) = true := bne_iff_ne.mpr (mt (sign_eq_iff a b).mp hsign)
    rw [if_neg hge, hsigns, if_pos rfl]
    rw [← num_aligned h] at hle hn
    obtain ⟨k, -, hhigh, hval⟩ := cvmDSubAligned_val a.toNat_sign_le ha.1 ha.2 hle hahi hn hne
    exact ⟨k, hhigh, hval⟩

end ordered

/-! ## The distance to the exact sum -/

/-- The number a double stands for, if it is finite. -/
def CvmF64.number (x : CvmF64) : Option ℚ :=
  if x.exp = 2047 then none
  else if x.exp = 0 then some (signed x.sign (((x.sig - 2 ^ 52 : ℕ) : ℚ) * 2 ^ (-1074 : ℤ)))
  else some x.val

/-- A magnitude in the range of the normal doubles. -/
def InNormalRange (s : ℚ) : Prop := 2 ^ (-1022 : ℤ) ≤ |s| ∧ |s| < 2 ^ (1024 : ℤ)

/-- A result less than one unit in the last place off, and zero only where the exact result is. -/
def WithinUlp (s : ℚ) (r : CvmF64) : Prop := ∃ x, r.number = some x ∧ |x - s| < ulp 53 s ∧ (x = 0 ↔ s = 0)

/-- The distance of the exponents of two operands. -/
def expGap (a b : CvmF64) : Nat := max a.exp b.exp - min a.exp b.exp

/-- The bits of the operand with the smaller exponent that its alignment shifts out. -/
def shiftedOut (a b : CvmF64) : Nat := (if b.exp ≤ a.exp then b.sig else a.sig) % 2 ^ expGap a b

/-- The operands have one sign, or the exact sum is not below the powers of two around the operand with the larger exponent, or less than half
a unit of that operand is shifted out. -/
def AddClose (a b : CvmF64) : Prop :=
  a.sign = b.sign ∨ 2 ^ (((max a.exp b.exp : ℕ) : ℤ) - 1023) ≤ |a.val + b.val| ∨ 2 * shiftedOut a b < 2 ^ expGap a b

/-- A normal number stands for its value. -/
theorem number_of_normal {x : CvmF64} (h : x.IsNormal) : x.number = some x.val := by
  rw [CvmF64.number, if_neg (Nat.ne_of_lt h.2), if_neg (Nat.ne_of_gt h.1)]

/-- A negation negates the value. -/
theorem number_cvmDNeg (x : CvmF64) : (cvmDNeg x).number = x.number.map fun q => -q := by
  have hexp : (cvmDNeg x).exp = x.exp := congrArg BitVec.toNat (exp_cvmDNeg x)
  have hsig : (cvmDNeg x).sig = x.sig := by
    have hfull : (cvmDNeg x).full = x.full := congrArg (· ||| 0x100000#32) (mhi_cvmDNeg x)
    rw [sig, hfull]
    rfl
  rw [CvmF64.number, CvmF64.number, hexp, hsig, sign_cvmDNeg, signed_not, val_cvmDNeg]
  split
  · rfl
  · split <;> rfl

/-- The zero of the runtime stands for zero. -/
theorem number_zero : cvmDZero.number = some 0 := by
  have hexp : cvmDZero.exp = 0 := by decide
  have hsig : cvmDZero.sig = 2 ^ 52 := by decide
  rw [CvmF64.number, hexp, if_neg (by decide), if_pos rfl, hsig, Nat.sub_self, Nat.cast_zero, zero_mul]
  rfl

/-- Within an ulp, for a normal result of a sum other than zero. -/
theorem within_iff_of_normal {s : ℚ} {r : CvmF64} (h : r.IsNormal) (hr : r.val ≠ 0) (hs : s ≠ 0) :
    WithinUlp s r ↔ |r.val - s| < ulp 53 s := by
  constructor
  · rintro ⟨x, hx, hlt, -⟩
    obtain rfl := Option.some.inj ((number_of_normal h).symm.trans hx)
    exact hlt
  · intro hlt
    exact ⟨r.val, number_of_normal h, hlt, iff_of_false hr hs⟩

/-- The bound does not depend on the order of the operands. -/
theorem addClose_comm (a b : CvmF64) : AddClose a b ↔ AddClose b a := by
  have hgap : expGap a b = expGap b a := by rw [expGap, expGap, max_comm, min_comm]
  have hshift : shiftedOut a b = shiftedOut b a ∨ expGap a b = 0 := by
    rcases Nat.lt_trichotomy a.exp b.exp with hlt | heq | hlt
    · exact Or.inl (by rw [shiftedOut, shiftedOut, hgap, if_neg (by omega), if_pos (by omega)])
    · exact Or.inr (by rw [expGap, heq, max_self, min_self, Nat.sub_self])
    · exact Or.inl (by rw [shiftedOut, shiftedOut, hgap, if_pos (by omega), if_neg (by omega)])
  have hlost : 2 * shiftedOut a b < 2 ^ expGap a b ↔ 2 * shiftedOut b a < 2 ^ expGap b a := by
    rcases hshift with hshift | hzero
    · rw [hshift, hgap]
    · unfold shiftedOut
      rw [← hgap, hzero]
      omega
  rw [AddClose, AddClose, hlost, max_comm, add_comm a.val, eq_comm]

section within

variable {a b : CvmF64} (h : Dominates a b) (ha : a.IsNormal)
include h

/-- The gap of the exponents with the larger operand first. -/
theorem expGap_of_dominates : expGap a b = a.exp - b.exp := by
  have hle := h.exp_le
  rw [expGap, max_eq_left hle, min_eq_right hle]

/-- The bits that are shifted out with the larger operand first. -/
theorem shiftedOut_of_dominates : shiftedOut a b = b.sig % 2 ^ (a.exp - b.exp) := by
  rw [shiftedOut, if_pos h.exp_le, expGap_of_dominates h]

/-- The exact sum of operands of one sign. -/
theorem exact_add (hsign : a.sign = b.sign) :
    a.val + b.val = signed a.sign (((a.sig : ℚ) + b.sig / 2 ^ (a.exp - b.exp)) * 2 ^ ((a.exp : ℤ) - 1075)) := by
  rw [val_aligned h.exp_le, ← hsign, val, signed_add, add_mul]

/-- The exact difference of operands of different signs. -/
theorem exact_sub (hsign : a.sign ≠ b.sign) :
    a.val + b.val = signed a.sign (((a.sig : ℚ) - b.sig / 2 ^ (a.exp - b.exp)) * 2 ^ ((a.exp : ℤ) - 1075)) := by
  have hnot : b.sign = !a.sign := by
    revert hsign
    cases a.sign <;> cases b.sign <;> decide
  rw [val_aligned h.exp_le, hnot, signed_not, ← sub_eq_add_neg, val, signed_sub, sub_mul]

include ha

/-- A sum of operands of one sign is the exact sum, cut towards zero to 53 significant bits. -/
theorem cvmDAddOrdered_truncates (hsign : a.sign = b.sign) (hrange : |a.val + b.val| < 2 ^ (1024 : ℤ)) :
    (cvmDAddOrdered a b).IsNormal ∧ (cvmDAddOrdered a b).val = truncate 53 (a.val + b.val) := by
  obtain ⟨k, hlow, hhigh, hval⟩ := cvmDAddOrdered_add h.exp_le ha hsign rfl
  have hdiv : (a.sig * 2 ^ (a.exp - b.exp) + b.sig) / 2 ^ (a.exp - b.exp + k) = (a.sig + b.sig / 2 ^ (a.exp - b.exp)) / 2 ^ k := by
    rw [Nat.pow_add, ← Nat.div_div_eq_div_mul, Nat.add_comm, Nat.add_mul_div_right _ _ (Nat.two_pow_pos _), Nat.add_comm]
  have hscaled : ((a.sig : ℚ) + b.sig / 2 ^ (a.exp - b.exp)) * 2 ^ ((a.exp : ℤ) - 1075) =
      ((a.sig * 2 ^ (a.exp - b.exp) + b.sig : ℕ) : ℚ) / (2 ^ (a.exp - b.exp + k) : ℕ) * 2 ^ ((a.exp : ℤ) - 1075 + k) := by
    have hk : (2 : ℚ) ^ k ≠ 0 := pow_ne_zero k two_ne_zero
    have hd : (2 : ℚ) ^ (a.exp - b.exp) ≠ 0 := pow_ne_zero _ two_ne_zero
    push_cast
    rw [zpow_add₀ two_ne_zero, zpow_natCast, pow_add]
    field_simp
  rw [exact_add h hsign, hscaled] at hrange ⊢
  have hlow' := (Nat.le_div_iff_mul_le (Nat.two_pow_pos _)).mp (hdiv ▸ hlow)
  have hhigh' := (Nat.div_lt_iff_lt_mul (Nat.two_pow_pos _)).mp (hdiv ▸ hhigh)
  -- the exponent of the result is in range because the exact sum is
  have hexp : a.exp + k < 2047 := by
    obtain ⟨hlow'', -⟩ := quotient_bounds (K := ℚ) (p := 53) hlow' hhigh'
    have hmax : (2 : ℚ) ^ (52 + ((a.exp : ℤ) - 1075 + k)) < 2 ^ (1024 : ℤ) := by
      refine lt_of_le_of_lt ?_ hrange
      rw [abs_scaled hlow'', zpow_add₀ two_ne_zero]
      exact mul_le_mul_of_nonneg_right hlow'' (zpow_pos two_pos _).le
    have hlt := (zpow_lt_zpow_iff_right₀ one_lt_two).mp hmax
    omega
  rw [truncate_quotient (p := 53) hlow' hhigh' a.sign (by decide), hdiv]
  exact hval hexp

/-- A sum of operands of one sign is always close. -/
theorem within_add (hsign : a.sign = b.sign) (hrange : InNormalRange (a.val + b.val)) : WithinUlp (a.val + b.val) (cvmDAddOrdered a b) := by
  obtain ⟨hnormal, hval⟩ := cvmDAddOrdered_truncates h ha hsign hrange.2
  have hne : a.val + b.val ≠ 0 := abs_pos.mp (lt_of_lt_of_le (zpow_pos two_pos _) hrange.1)
  rw [within_iff_of_normal hnormal (val_ne_zero _) hne, hval]
  exact abs_truncate_sub_lt 53 (a.val + b.val)

/-- A difference is close if and only if nothing cancels or less than half a unit is shifted out. -/
theorem within_sub_iff (hsign : a.sign ≠ b.sign) (hrange : a.val + b.val = 0 ∨ InNormalRange (a.val + b.val)) :
    WithinUlp (a.val + b.val) (cvmDAddOrdered a b) ↔
      2 ^ ((a.exp : ℤ) - 1023) ≤ |a.val + b.val| ∨ 2 * (b.sig % 2 ^ (a.exp - b.exp)) < 2 ^ (a.exp - b.exp) := by
  have hunit : (0 : ℚ) < 2 ^ ((a.exp : ℤ) - 1075) := zpow_pos two_pos _
  have hgap : (0 : ℚ) < 2 ^ (a.exp - b.exp) := pow_pos two_pos _
  have hexact := exact_sub h hsign
  have hle : b.sig / 2 ^ (a.exp - b.exp) ≤ a.sig := Nat.div_le_of_le_mul (by rw [Nat.mul_comm]; exact h.aligned_le)
  by_cases hzero : a.sig - b.sig / 2 ^ (a.exp - b.exp) = 0
  · -- the operands cancel, and nothing was shifted out
    have heq : a.sig = b.sig / 2 ^ (a.exp - b.exp) := Nat.le_antisymm (Nat.le_of_sub_eq_zero hzero) hle
    have hsplit := Nat.div_add_mod' b.sig (2 ^ (a.exp - b.exp))
    have hcut : b.sig % 2 ^ (a.exp - b.exp) = 0 := by
      have hmag := h.aligned_le
      rw [← heq] at hsplit
      omega
    have hvalues : a.val + b.val = 0 := by
      rw [hexact, signed_eq_zero, div_two_pow_cast b.sig, ← heq, hcut, Nat.cast_zero, zero_div, add_zero, sub_self, zero_mul]
    refine iff_of_true ?_ (Or.inr (by rw [hcut]; exact Nat.two_pow_pos _))
    rw [cvmDAddOrdered_cancel h.exp_le hsign heq, hvalues]
    refine ⟨0, ?_, ?_, Iff.rfl⟩
    · exact number_zero
    · rw [sub_self, abs_zero]
      exact ulp_pos 53 0
  · have hlt : (b.sig : ℚ) / 2 ^ (a.exp - b.exp) < a.sig := by
      rw [div_lt_iff₀ hgap]
      have hnat := (Nat.div_lt_iff_lt_mul (Nat.two_pow_pos (a.exp - b.exp))).mp (Nat.lt_of_sub_ne_zero hzero)
      exact_mod_cast hnat
    have hpos : 0 < ((a.sig : ℚ) - b.sig / 2 ^ (a.exp - b.exp)) * 2 ^ ((a.exp : ℤ) - 1075) := mul_pos (sub_pos.mpr hlt) hunit
    have hne : signed a.sign (((a.sig : ℚ) - b.sig / 2 ^ (a.exp - b.exp)) * 2 ^ ((a.exp : ℤ) - 1075)) ≠ 0 := by
      rw [Ne, signed_eq_zero]
      exact hpos.ne'
    obtain ⟨k, hhigh, hval⟩ := cvmDAddOrdered_sub h.exp_le ha hsign hle rfl hzero
    rw [hexact] at hrange ⊢
    -- the exponent of the result is in range because the exact difference is
    have hexp : k < a.exp := by
      have hmin := (hrange.resolve_left hne).1
      have hbound : (2 : ℚ) ^ (-1022 + (k : ℤ)) < 2 ^ (53 + ((a.exp : ℤ) - 1075)) := by
        rw [abs_signed, abs_of_pos hpos] at hmin
        have hhigh' : ((a.sig - b.sig / 2 ^ (a.exp - b.exp) : ℕ) : ℚ) * 2 ^ k < 2 ^ 53 := by exact_mod_cast hhigh
        have hfloor : (a.sig : ℚ) - b.sig / 2 ^ (a.exp - b.exp) ≤ ((a.sig - b.sig / 2 ^ (a.exp - b.exp) : ℕ) : ℚ) := by
          rw [div_two_pow_cast b.sig, Nat.cast_sub hle]
          linarith [dropped_nonneg b.sig (a.exp - b.exp)]
        have hk : (0 : ℚ) < 2 ^ k := pow_pos two_pos k
        rw [zpow_add₀ two_ne_zero, zpow_add₀ two_ne_zero, zpow_natCast]
        calc (2 : ℚ) ^ (-1022 : ℤ) * 2 ^ k ≤ ((a.sig : ℚ) - b.sig / 2 ^ (a.exp - b.exp)) * 2 ^ ((a.exp : ℤ) - 1075) * 2 ^ k :=
              mul_le_mul_of_nonneg_right hmin hk.le
          _ = ((a.sig : ℚ) - b.sig / 2 ^ (a.exp - b.exp)) * 2 ^ k * 2 ^ ((a.exp : ℤ) - 1075) := by ring
          _ ≤ ((a.sig - b.sig / 2 ^ (a.exp - b.exp) : ℕ) : ℚ) * 2 ^ k * 2 ^ ((a.exp : ℤ) - 1075) := by gcongr
          _ < 2 ^ (53 : ℤ) * 2 ^ ((a.exp : ℤ) - 1075) := mul_lt_mul_of_pos_right hhigh' hunit
      have hlt := (zpow_lt_zpow_iff_right₀ one_lt_two).mp hbound
      omega
    obtain ⟨hnormal, hval⟩ := hval hexp
    have hne' : (cvmDAddOrdered a b).val ≠ 0 := by
      rw [hval, Ne, signed_eq_zero]
      exact mul_ne_zero (Nat.cast_ne_zero.mpr hzero) (zpow_ne_zero _ two_ne_zero)
    have herror := sub_error_iff (e := (a.exp : ℤ) - 1075) a.sig_lo b.sig_hi hle hlt
    rw [within_iff_of_normal hnormal hne' hne, hval, signed_sub, abs_signed, abs_signed, ulp_signed, abs_of_pos hpos, herror]
    rw [show (52 : ℤ) + ((a.exp : ℤ) - 1075) = a.exp - 1023 by ring]

end within

/-- The sum of normal doubles of one sign is the exact sum, cut towards zero to 53 significant bits. -/
theorem cvmDAdd_truncates {a b : CvmF64} (ha : a.IsNormal) (hb : b.IsNormal) (hsign : a.sign = b.sign)
    (hrange : |a.val + b.val| < 2 ^ (1024 : ℤ)) : (cvmDAdd a b).IsNormal ∧ (cvmDAdd a b).val = truncate 53 (a.val + b.val) := by
  rcases cvmDAdd_ordered ha hb with ⟨h, heq⟩ | ⟨h, heq⟩
  · rw [heq]
    exact cvmDAddOrdered_truncates h ha hsign hrange
  · rw [add_comm a.val] at hrange ⊢
    rw [heq]
    exact cvmDAddOrdered_truncates h hb hsign.symm hrange

/-- A sum of normal doubles is close if and only if nothing cancels or less than half a unit is shifted out. -/
theorem within_cvmDAdd_iff {a b : CvmF64} (ha : a.IsNormal) (hb : b.IsNormal)
    (hrange : a.val + b.val = 0 ∨ InNormalRange (a.val + b.val)) : WithinUlp (a.val + b.val) (cvmDAdd a b) ↔ AddClose a b := by
  have hordered : ∀ x y : CvmF64, Dominates x y → x.IsNormal → x.val + y.val = 0 ∨ InNormalRange (x.val + y.val) →
      (WithinUlp (x.val + y.val) (cvmDAddOrdered x y) ↔ AddClose x y) := by
    intro x y h hx hxy
    have hmax : ((max x.exp y.exp : ℕ) : ℤ) = x.exp := by rw [max_eq_left h.exp_le]
    rw [AddClose, hmax, shiftedOut_of_dominates h, expGap_of_dominates h]
    by_cases hsign : x.sign = y.sign
    · have hne : x.val + y.val ≠ 0 := by
        rw [exact_add h hsign, Ne, signed_eq_zero]
        have hlo : (0 : ℚ) < x.sig := by exact_mod_cast Nat.lt_of_lt_of_le (by decide) x.sig_lo
        exact (mul_pos (add_pos_of_pos_of_nonneg hlo (by positivity)) (zpow_pos two_pos _)).ne'
      exact iff_of_true (within_add h hx hsign (hxy.resolve_left hne)) (Or.inl hsign)
    · rw [within_sub_iff h hx hsign hxy, or_iff_right hsign]
  rcases cvmDAdd_ordered ha hb with ⟨h, heq⟩ | ⟨h, heq⟩
  · rw [heq]
    exact hordered a b h ha hrange
  · rw [heq, addClose_comm]
    rw [add_comm] at hrange ⊢
    exact hordered b a h hb hrange

end CronoVM
