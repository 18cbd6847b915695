import CronoVM.Lemmas.Float64Flush
import CronoVM.Lemmas.Float64Mul

/-!
# Doubles and integers

A word is converted exactly, and a double is cut to an integer. A number of two words is the sum of its words, the high one scaled by two
exact multiplications, and so it is cut to 53 significant bits.
-/

namespace CronoVM

open CvmF64 Precision TwoWord

/-! ## Words -/

/-- The leading one of a word, cleared. -/
theorem toNat_xor_top {v : Word} {t : Nat} (hlo : 2 ^ t ≤ v.toNat) (hhi : v.toNat < 2 ^ (t + 1)) :
    (v ^^^ (1#32 <<< t)).toNat = v.toNat - 2 ^ t := by
  have hone : (1#32 <<< t : Word).toNat = 2 ^ t := by
    rw [BitVec.toNat_shiftLeft, Nat.shiftLeft_eq, Nat.mod_eq_of_lt]
    · exact Nat.one_mul _
    · exact Nat.lt_of_le_of_lt (Nat.le_trans (Nat.le_of_eq (Nat.one_mul _)) hlo) v.isLt
  have hquot : v.toNat / 2 ^ t = 1 := Nat.div_eq_of_lt_le (by rwa [Nat.one_mul]) (by rwa [Nat.pow_succ, Nat.mul_comm] at hhi)
  have hsplit := Nat.div_add_mod v.toNat (2 ^ t)
  rw [hquot, Nat.mul_one] at hsplit
  have hdiv : (v.toNat ^^^ 2 ^ t) / 2 ^ t = 0 := by
    rw [Nat.xor_div_two_pow, hquot, Nat.div_self (Nat.two_pow_pos t)]
    rfl
  have hmod : (v.toNat ^^^ 2 ^ t) % 2 ^ t = v.toNat % 2 ^ t := by
    rw [Nat.xor_mod_two_pow, Nat.mod_self, Nat.xor_zero]
  have hxor := Nat.div_add_mod (v.toNat ^^^ 2 ^ t) (2 ^ t)
  rw [hdiv, hmod, Nat.mul_zero, Nat.zero_add] at hxor
  rw [BitVec.toNat_xor, hone]
  omega

/-- A mantissa is shifted without a loss. -/
theorem num_cvmDMantissa {m : Word} {shl : Nat} (h : m.toNat * 2 ^ shl < 2 ^ 52) :
    num (cvmDMantissa m shl).mHi (cvmDMantissa m shl).mLo = m.toNat * 2 ^ shl := by
  have hzero : num 0#32 m = m.toNat := Nat.zero_add _
  unfold cvmDMantissa
  by_cases hge : shl ≥ 32
  · have hpow : m.toNat * 2 ^ shl = 2 ^ 32 * (m.toNat * 2 ^ (shl - 32)) := by
      rw [Nat.mul_left_comm, ← Nat.pow_add, Nat.add_sub_cancel' hge]
    rw [hpow] at h ⊢
    rw [if_pos hge, num, BitVec.toNat_shiftLeft, Nat.shiftLeft_eq, Nat.mod_eq_of_lt (by omega)]
    rfl
  · rw [if_neg hge]
    by_cases hshl : shl = 0
    · rw [if_pos hshl, hshl, Nat.pow_zero, Nat.mul_one]
      exact hzero
    · have hshift := @num_shiftLeft 0#32 m shl (Nat.lt_of_not_le hge) (by rw [hzero]; omega)
      rw [BitVec.zero_shiftLeft, BitVec.zero_or, hzero] at hshift
      rw [if_neg hshl]
      exact hshift

/-- A positive word is converted exactly. -/
theorem cvmDFromU32_normal {v : Word} (hv : v ≠ 0#32) : (cvmDFromU32 v).IsNormal ∧ (cvmDFromU32 v).val = v.toNat := by
  obtain ⟨hlo, hhi⟩ := cvmTopBitU32_bounds hv
  have hxor := toNat_xor_top hlo hhi
  have htop : cvmTopBitU32 v < 32 := (Nat.pow_lt_pow_iff_right Nat.one_lt_two).mp (Nat.lt_of_le_of_lt hlo v.isLt)
  have hdef : cvmDFromU32 v = cvmDPack 0#32 (BitVec.ofNat 32 (1023 + cvmTopBitU32 v))
      ((cvmDMantissa (v ^^^ (1#32 <<< cvmTopBitU32 v)) (52 - cvmTopBitU32 v)).mHi &&& 0xFFFFF#32)
      (cvmDMantissa (v ^^^ (1#32 <<< cvmTopBitU32 v)) (52 - cvmTopBitU32 v)).mLo := if_neg hv
  rw [hdef]
  generalize cvmTopBitU32 v = t at *
  have hunit : 2 ^ t * 2 ^ (52 - t) = 2 ^ 52 := by rw [← Nat.pow_add, Nat.add_sub_cancel' (by omega)]
  have hsub : (v.toNat - 2 ^ t) * 2 ^ (52 - t) + 2 ^ 52 = v.toNat * 2 ^ (52 - t) := by
    rw [Nat.sub_mul, hunit]
    exact Nat.sub_add_cancel (hunit ▸ Nat.mul_le_mul_right _ hlo)
  have hbound : (v.toNat - 2 ^ t) * 2 ^ (52 - t) < 2 ^ 52 := by
    rw [← hunit]
    refine Nat.mul_lt_mul_of_pos_right ?_ (Nat.two_pow_pos _)
    rw [Nat.pow_succ] at hhi
    omega
  have hnum := @num_cvmDMantissa (v ^^^ (1#32 <<< t)) (52 - t) (by rwa [hxor])
  rw [hxor] at hnum
  generalize cvmDMantissa (v ^^^ (1#32 <<< t)) (52 - t) = m at *
  have hexp : (BitVec.ofNat 32 (1023 + t)).toNat = 1023 + t := by
    rw [BitVec.toNat_ofNat]
    omega
  have hmHi : m.mHi.toNat < 2 ^ 20 := by
    unfold num at hnum
    omega
  have hsig : (cvmDPack 0#32 (BitVec.ofNat 32 (1023 + t)) (m.mHi &&& 0xFFFFF#32) m.mLo).sig = v.toNat * 2 ^ (52 - t) := by
    rw [sig_pack (by decide), Nat.mod_eq_of_lt hmHi, ← hsub, ← hnum, num]
    omega
  have hexp' : (cvmDPack 0#32 (BitVec.ofNat 32 (1023 + t)) (m.mHi &&& 0xFFFFF#32) m.mLo).exp = 1023 + t := by
    rw [exp_pack (by decide) (by omega), hexp]
  constructor
  · rw [IsNormal, hexp']
    omega
  · have hscale : (2 : ℚ) ^ (((1023 + t : ℕ) : ℤ) - 1075) = (2 ^ (52 - t))⁻¹ := by
      rw [← zpow_natCast, ← zpow_neg, Nat.cast_sub (by omega)]
      congr 1
      push_cast
      ring
    have hne : (2 : ℚ) ^ (52 - t) ≠ 0 := pow_ne_zero _ two_ne_zero
    rw [val, sign_pack (by decide), hsig, hexp', hscale, Nat.cast_mul, Nat.cast_pow, Nat.cast_two, mul_inv_cancel_right₀ hne]
    rfl

/-- `cvm_d_from_u32` is exact. -/
theorem number_cvmDFromU32 (v : Word) : (cvmDFromU32 v).number = some (v.toNat : ℚ) := by
  by_cases hv : v = 0#32
  · rw [hv]
    exact number_zero
  · obtain ⟨hnormal, hval⟩ := cvmDFromU32_normal hv
    rw [number_of_normal hnormal, hval]

/-- A sign bit that is clear is set or flipped alike. -/
theorem or_signBit {h : Word} (hh : h.toNat < 2 ^ 31) : h ||| 0x80000000#32 = h ^^^ 0x80000000#32 := by
  apply BitVec.eq_of_getLsbD_eq
  intro i hi
  have hmask : (0x80000000#32 : Word).getLsbD i = (decide (31 < 32) && decide (31 = i)) := BitVec.getLsbD_twoPow 31 i
  rw [BitVec.getLsbD_or, BitVec.getLsbD_xor, hmask]
  by_cases htop : 31 = i
  · have hclear : h.getLsbD i = false := htop ▸ Nat.testBit_lt_two_pow hh
    rw [hclear, Bool.false_or, Bool.false_xor]
  · rw [decide_eq_false htop, Bool.and_false, Bool.or_false, Bool.xor_false]

theorem hi_lt_of_sign {x : CvmF64} (h : x.sign = false) : x.hi.toNat < 2 ^ 31 := by
  have hzero : cvmDSign x = 0#32 := bne_eq_false_iff_eq.mp h
  have hfields := x.toNat_hi
  have hexp := x.exp_lt
  have hmhi := x.toNat_mhi
  rw [hzero, BitVec.toNat_zero] at hfields
  omega

/-- `cvm_d_from_i32` is exact. -/
theorem number_cvmDFromI32 (v : Word) : (cvmDFromI32 v).number = some (v.toInt : ℚ) := by
  unfold cvmDFromI32
  by_cases hv : v = 0#32
  · rw [if_pos hv, hv]
    exact number_zero
  · have hlt := v.isLt
    rw [if_neg hv]
    by_cases hneg : v.slt 0#32 = true
    · have hint : v.toInt < 0 := by rwa [BitVec.slt_eq_decide, decide_eq_true_eq, BitVec.toInt_zero] at hneg
      have hmag : ((~~~v + 1#32).toNat : ℤ) = -v.toInt := by
        rw [BitVec.toInt_eq_toNat_cond] at hint ⊢
        rw [show ~~~v + 1#32 = -v from (BitVec.neg_eq_not_add v).symm, BitVec.toNat_neg]
        omega
      have hne : ~~~v + 1#32 ≠ 0#32 := by
        intro h
        rw [h, BitVec.toNat_zero] at hmag
        omega
      obtain ⟨-, hval⟩ := cvmDFromU32_normal hne
      have hsign : (cvmDFromU32 (~~~v + 1#32)).sign = false := by
        rw [← decide_val_lt_zero, hval]
        exact decide_eq_false (not_lt.mpr (Nat.cast_nonneg _))
      have hflip : { cvmDFromU32 (~~~v + 1#32) with hi := (cvmDFromU32 (~~~v + 1#32)).hi ||| 0x80000000#32 } =
          cvmDNeg (cvmDFromU32 (~~~v + 1#32)) := by
        rw [or_signBit (hi_lt_of_sign hsign)]
        rfl
      have hcast : ((~~~v + 1#32).toNat : ℚ) = -(v.toInt : ℚ) := by exact_mod_cast hmag
      rw [if_pos hneg]
      dsimp only
      rw [hflip, number_cvmDNeg, number_cvmDFromU32, hcast, Option.map_some, neg_neg]
    · have hint : v.toInt = v.toNat := by
        rw [BitVec.slt_eq_decide, decide_eq_true_eq, BitVec.toInt_zero] at hneg
        rw [BitVec.toInt_eq_toNat_cond] at hneg ⊢
        omega
      rw [if_neg hneg, number_cvmDFromU32, hint, Int.cast_natCast]

/-! ## Two words -/

/-- Scaling by `2 ^ 16` is exact. -/
theorem cvmDMul_scale {x : CvmF64} (hx : x.IsNormal) (hmax : x.exp + 16 < 2047) :
    (cvmDMul x (cvmDFromU32 0x10000#32)).IsNormal ∧ (cvmDMul x (cvmDFromU32 0x10000#32)).val = x.val * 2 ^ 16 := by
  obtain ⟨hk, hkval⟩ := cvmDFromU32_normal (v := 0x10000#32) (by decide)
  have hkval' : (cvmDFromU32 0x10000#32).val = 2 ^ (16 : ℤ) := by
    rw [hkval]
    norm_num
  have hpos := hx.1
  exact cvmDMul_two_pow hx hk hkval' (by omega) (by omega)

/-- The high word, scaled. -/
theorem cvmDFromU32_scaled {v : Word} (hv : v ≠ 0#32) :
    (cvmDMul (cvmDMul (cvmDFromU32 v) (cvmDFromU32 0x10000#32)) (cvmDFromU32 0x10000#32)).IsNormal ∧
      (cvmDMul (cvmDMul (cvmDFromU32 v) (cvmDFromU32 0x10000#32)) (cvmDFromU32 0x10000#32)).val = v.toNat * 2 ^ 32 := by
  obtain ⟨hnormal, hval⟩ := cvmDFromU32_normal hv
  have hv' : (v.toNat : ℚ) < 2 ^ 32 := by exact_mod_cast v.isLt
  have hexp := exp_lt_of_abs_val_lt (x := cvmDFromU32 v) (n := 32) (by rw [hval, abs_of_nonneg (Nat.cast_nonneg _)]; exact hv')
  obtain ⟨hnormal', hval'⟩ := cvmDMul_scale hnormal (by omega)
  have hexp' := exp_lt_of_abs_val_lt (x := cvmDMul (cvmDFromU32 v) (cvmDFromU32 0x10000#32)) (n := 48) (by
    rw [hval', hval, abs_of_nonneg (by positivity)]
    calc (v.toNat : ℚ) * 2 ^ 16 < 2 ^ 32 * 2 ^ 16 := mul_lt_mul_of_pos_right hv' (by norm_num)
      _ = 2 ^ (48 : ℤ) := by norm_num)
  obtain ⟨hnormal'', hval''⟩ := cvmDMul_scale hnormal' (by omega)
  refine ⟨hnormal'', ?_⟩
  rw [hval'', hval', hval]
  ring

/-- A number of two words is cut to 53 significant bits. -/
theorem number_cvmFFromU64 (v : BitVec 64) : (cvmFFromU64 v).number = some (truncate 53 (v.toNat : ℚ)) := by
  have hlo : (v.setWidth 32 : Word).toNat = v.toNat % 2 ^ 32 := BitVec.toNat_setWidth 32 v
  have hhi : ((v >>> 32).setWidth 32 : Word).toNat = v.toNat / 2 ^ 32 := by
    rw [BitVec.toNat_setWidth, BitVec.toNat_ushiftRight, Nat.shiftRight_eq_div_pow]
    exact Nat.mod_eq_of_lt (Nat.div_lt_of_lt_mul v.isLt)
  have hsplit : (v.toNat : ℚ) = ((v >>> 32).setWidth 32 : Word).toNat * 2 ^ 32 + (v.setWidth 32 : Word).toNat := by
    rw [hhi, hlo]
    exact_mod_cast (Nat.div_add_mod' v.toNat (2 ^ 32)).symm
  have hbound : (v.toNat : ℚ) < 2 ^ (1024 : ℤ) := by
    have hlt : (v.toNat : ℚ) < 2 ^ 64 := by exact_mod_cast v.isLt
    refine lt_trans hlt ?_
    rw [← zpow_natCast]
    exact zpow_lt_zpow_right₀ one_lt_two (by decide)
  rw [hsplit] at hbound ⊢
  unfold cvmFFromU64
  dsimp only
  generalize ((v >>> 32).setWidth 32 : Word) = hi at *
  generalize (v.setWidth 32 : Word) = lo at *
  by_cases hzero : hi = 0#32
  · rw [if_pos hzero, number_cvmDFromU32, hzero, BitVec.toNat_zero, Nat.cast_zero, zero_mul, zero_add]
    by_cases hlo0 : lo = 0#32
    · rw [hlo0, BitVec.toNat_zero, Nat.cast_zero, truncate_zero]
    · rw [← (cvmDFromU32_normal hlo0).2, truncate_val]
  · obtain ⟨hnormal, hval⟩ := cvmDFromU32_scaled hzero
    rw [if_neg hzero]
    generalize cvmDMul (cvmDMul (cvmDFromU32 hi) (cvmDFromU32 0x10000#32)) (cvmDFromU32 0x10000#32) = thi at *
    by_cases hlo0 : lo = 0#32
    · have hsum : cvmDAdd thi (cvmDFromU32 0#32) = thi := cvmDAdd_zero_right rfl hnormal.not_nan hnormal.not_zero
      rw [hlo0, hsum, BitVec.toNat_zero, Nat.cast_zero, add_zero, ← hval, truncate_val, number_of_normal hnormal]
    · obtain ⟨hnormal', hval'⟩ := cvmDFromU32_normal hlo0
      have hthi : 0 ≤ thi.val := hval ▸ mul_nonneg (Nat.cast_nonneg _) (pow_nonneg two_pos.le _)
      have hdlo : 0 ≤ (cvmDFromU32 lo).val := hval' ▸ Nat.cast_nonneg _
      have hsign : ∀ x : CvmF64, 0 ≤ x.val → x.sign = false := by
        intro x hx
        rw [← decide_val_lt_zero]
        exact decide_eq_false (not_lt.mpr hx)
      rw [← hval, ← hval'] at hbound ⊢
      obtain ⟨hsum, hsumVal⟩ := cvmDAdd_truncates hnormal hnormal' ((hsign thi hthi).trans (hsign _ hdlo).symm)
        (by rwa [abs_of_nonneg (add_nonneg hthi hdlo)])
      rw [number_of_normal hsum, hsumVal]

/-! ## Back to words -/

/-- The integer part of a double, kept between two bounds; an infinity gives the bound on its side, and a NaN gives 0. -/
def CvmF64.saturated (least greatest : ℤ) (x : CvmF64) : ℤ :=
  if cvmDIsnan x then 0
  else match x.number with
    | none => if x.sign then least else greatest
    | some q => max least (min greatest (towardZero q))

/-- The bits of a significand above the point. -/
theorem toNat_cvmDTruncate (x : CvmF64) {e : ℤ} (hpos : 0 ≤ e) (hmax : e ≤ 31) : (cvmDTruncate x e).toNat = x.sig / 2 ^ (52 - e).toNat := by
  have hhi := x.sig_hi
  obtain ⟨n, hn⟩ : ∃ n : ℕ, (52 - e).toNat = n := ⟨_, rfl⟩
  have hle : 21 ≤ n := by omega
  unfold cvmDTruncate
  dsimp only
  rw [hn]
  by_cases hge : n ≥ 32
  · have hpow : x.sig / 2 ^ n = x.full.toNat / 2 ^ (n - 32) := by
      have hfull : x.sig / 2 ^ 32 = x.full.toNat := by
        have hlo := x.lo.isLt
        unfold sig
        omega
      rw [← hfull, Nat.div_div_eq_div_mul, ← Nat.pow_add, Nat.add_sub_cancel' hge]
    rw [if_pos hge, hpow, BitVec.toNat_ushiftRight, Nat.shiftRight_eq_div_pow]
    rfl
  · have hlt : x.sig / 2 ^ n < 2 ^ 32 := by
      refine Nat.div_lt_of_lt_mul (Nat.lt_of_lt_of_le hhi ?_)
      rw [← Nat.pow_add]
      exact Nat.pow_le_pow_right Nat.two_pos (by omega)
    rw [if_neg hge]
    exact (toNat_funnel x.full x.lo (Nat.lt_of_not_le hge)).trans (Nat.mod_eq_of_lt hlt)

/-- The integer part of a double that is not too large. -/
theorem floor_abs_val {x : CvmF64} {n : ℕ} (h : x.exp + n = 1075) : ⌊|x.val|⌋ = (x.sig / 2 ^ n : ℕ) := by
  have hscale : (2 : ℚ) ^ ((x.exp : ℤ) - 1075) = ((2 ^ n : ℕ) : ℚ)⁻¹ := by
    rw [Nat.cast_pow, Nat.cast_two, ← zpow_natCast, ← zpow_neg]
    congr 1
    omega
  have hpos : 0 < (x.sig : ℚ) * 2 ^ ((x.exp : ℤ) - 1075) := mul_pos x.sig_pos (zpow_pos two_pos _)
  rw [val, abs_signed, abs_of_pos hpos, hscale, ← div_eq_mul_inv]
  exact floor_quotient (Nat.mod_lt _ (Nat.two_pow_pos n)) (Nat.div_add_mod' _ _).symm

theorem towardZero_val (x : CvmF64) : towardZero x.val = if x.sign then -⌊|x.val|⌋ else ⌊|x.val|⌋ := by
  have hpos : 0 < (x.sig : ℚ) * 2 ^ ((x.exp : ℤ) - 1075) := mul_pos x.sig_pos (zpow_pos two_pos _)
  rw [val, abs_signed, abs_of_pos hpos]
  exact towardZero_signed x.sign hpos.le

/-- A magnitude with a small exponent is below one. -/
theorem floor_abs_val_small {x : CvmF64} (h : x.exp < 1023) : ⌊|x.val|⌋ = 0 := by
  have hhi : (x.sig : ℚ) < 2 ^ 53 := by exact_mod_cast x.sig_hi
  have hpos : 0 < (x.sig : ℚ) * 2 ^ ((x.exp : ℤ) - 1075) := mul_pos x.sig_pos (zpow_pos two_pos _)
  rw [val, abs_signed, abs_of_pos hpos, Int.floor_eq_zero_iff]
  refine ⟨hpos.le, ?_⟩
  calc (x.sig : ℚ) * 2 ^ ((x.exp : ℤ) - 1075) < 2 ^ 53 * 2 ^ ((x.exp : ℤ) - 1075) := mul_lt_mul_of_pos_right hhi (zpow_pos two_pos _)
    _ = 2 ^ (53 + ((x.exp : ℤ) - 1075)) := by rw [zpow_add₀ two_ne_zero]; rfl
    _ ≤ 1 := zpow_le_one_of_nonpos₀ one_le_two (by omega)

/-- A magnitude with a large exponent is large. -/
theorem le_floor_abs_val {x : CvmF64} {n : ℕ} (h : 1023 + n ≤ x.exp) : 2 ^ n ≤ ⌊|x.val|⌋ := by
  rw [Int.le_floor]
  refine le_trans ?_ x.zpow_le_abs_val
  push_cast
  rw [← zpow_natCast]
  exact zpow_le_zpow_right₀ one_le_two (by omega)

theorem saturated_of_number {x : CvmF64} {q : ℚ} (h : x.number = some q) (least greatest : ℤ) :
    x.saturated least greatest = max least (min greatest (towardZero q)) := by
  have hexp : x.exp ≠ 2047 := fun hmax => nomatch h.symm.trans (if_pos hmax : x.number = none)
  rw [saturated, isnan_of_exp_lt (Nat.lt_of_le_of_ne (Nat.lt_succ_iff.mp x.exp_lt) hexp), if_neg Bool.false_ne_true, h]

/-- A zero or a subnormal has no integer part. -/
theorem saturated_of_exp_zero {x : CvmF64} (h : x.exp = 0) {least greatest : ℤ} (hleast : least ≤ 0) (hgreatest : 0 ≤ greatest) :
    x.saturated least greatest = 0 := by
  have hhi := x.sig_hi
  have hnumber : x.number = some (signed x.sign (((x.sig - 2 ^ 52 : ℕ) : ℚ) * 2 ^ (-1074 : ℤ))) := by
    rw [CvmF64.number, h, if_neg (by decide), if_pos rfl]
  have hnonneg : 0 ≤ ((x.sig - 2 ^ 52 : ℕ) : ℚ) * 2 ^ (-1074 : ℤ) := mul_nonneg (Nat.cast_nonneg _) (zpow_pos two_pos _).le
  have hfloor : ⌊((x.sig - 2 ^ 52 : ℕ) : ℚ) * 2 ^ (-1074 : ℤ)⌋ = 0 := by
    rw [Int.floor_eq_zero_iff]
    refine ⟨hnonneg, ?_⟩
    have hlt : ((x.sig - 2 ^ 52 : ℕ) : ℚ) < 2 ^ 53 := by
      have hnat : x.sig - 2 ^ 52 < 2 ^ 53 := by omega
      exact_mod_cast hnat
    calc ((x.sig - 2 ^ 52 : ℕ) : ℚ) * 2 ^ (-1074 : ℤ) < 2 ^ 53 * 2 ^ (-1074 : ℤ) := mul_lt_mul_of_pos_right hlt (zpow_pos two_pos _)
      _ = 2 ^ (53 + (-1074) : ℤ) := by rw [zpow_add₀ two_ne_zero]; rfl
      _ ≤ 1 := zpow_le_one_of_nonpos₀ one_le_two (by decide)
  rw [saturated_of_number hnumber, towardZero_signed _ hnonneg, hfloor, neg_zero, ite_self, min_eq_right hgreatest, max_eq_right hleast]

theorem saturated_of_normal {x : CvmF64} (hx : x.IsNormal) (least greatest : ℤ) :
    x.saturated least greatest = max least (min greatest (if x.sign then -⌊|x.val|⌋ else ⌊|x.val|⌋)) := by
  rw [saturated_of_number (number_of_normal hx), towardZero_val]

theorem saturated_of_inf {x : CvmF64} (hx : cvmDIsinf x = true) (hnan : cvmDIsnan x = false) (least greatest : ℤ) :
    x.saturated least greatest = if x.sign then least else greatest := by
  have hnumber : x.number = none := if_pos (exp_of_isinf hx)
  rw [saturated, hnan, if_neg Bool.false_ne_true, hnumber]

/-- The integer part that a conversion computes, below its bound. -/
theorem truncate_bounds {x : CvmF64} {m : ℕ} (hlow : 1023 ≤ x.exp) (hhigh : x.exp < 1023 + m) (hm : m ≤ 32) :
    ((cvmDTruncate x ((x.exp : ℤ) - 1023)).toNat : ℤ) = ⌊|x.val|⌋ ∧ (cvmDTruncate x ((x.exp : ℤ) - 1023)).toNat < 2 ^ m := by
  have hhi := x.sig_hi
  have hshift : (52 - ((x.exp : ℤ) - 1023)).toNat = 1075 - x.exp := by omega
  rw [toNat_cvmDTruncate x (by omega) (by omega), hshift, floor_abs_val (n := 1075 - x.exp) (by omega)]
  refine ⟨rfl, Nat.div_lt_of_lt_mul (Nat.lt_of_lt_of_le hhi ?_)⟩
  rw [← Nat.pow_add]
  exact Nat.pow_le_pow_right Nat.two_pos (by omega)

theorem exp_word_ne_zero {x : CvmF64} (h : x.exp ≠ 0) : ¬cvmDExp x = 0#32 := fun hw => h (congrArg BitVec.toNat hw)

/-- `cvm_d_to_i32` cuts towards zero and saturates. -/
theorem toInt_cvmDToI32 (x : CvmF64) : (cvmDToI32 x).toInt = x.saturated (-2 ^ 31) (2 ^ 31 - 1) := by
  unfold cvmDToI32
  dsimp only
  by_cases hnan : cvmDIsnan x = true
  · rw [if_pos hnan, saturated, if_pos hnan]
    rfl
  · have hnan' := Bool.eq_false_iff.mpr hnan
    rw [if_neg hnan, x.toInt_exp]
    by_cases hzero : x.exp = 0
    · have hword : cvmDExp x = 0#32 := BitVec.eq_of_toNat_eq hzero
      rw [if_pos hword, saturated_of_exp_zero hzero (by decide) (by decide)]
      rfl
    · rw [if_neg (exp_word_ne_zero hzero)]
      by_cases hsmall : (x.exp : ℤ) - 1023 < 0
      · have hnormal : x.IsNormal := ⟨Nat.pos_of_ne_zero hzero, by omega⟩
        rw [if_pos hsmall, saturated_of_normal hnormal, floor_abs_val_small (by omega), neg_zero, ite_self]
        rfl
      · rw [if_neg hsmall]
        by_cases hlarge : (x.exp : ℤ) - 1023 ≥ 31
        · have hbound : x.saturated (-2 ^ 31) (2 ^ 31 - 1) = if x.sign then -2 ^ 31 else 2 ^ 31 - 1 := by
            by_cases hinf : cvmDIsinf x = true
            · exact saturated_of_inf hinf hnan' _ _
            · have hfloor : (2 : ℤ) ^ 31 ≤ ⌊|x.val|⌋ := le_floor_abs_val (by omega)
              rw [saturated_of_normal ⟨Nat.pos_of_ne_zero hzero, exp_lt_of_finite hnan' (Bool.eq_false_iff.mpr hinf)⟩]
              split <;> omega
          rw [if_pos hlarge, hbound]
          unfold sign
          rcases x.sign_cases with h | h <;> rw [h] <;> rfl
        · obtain ⟨hfloor, hlt⟩ := truncate_bounds (x := x) (m := 31) (by omega) (by omega) (by decide)
          rw [if_neg hlarge, saturated_of_normal ⟨by omega, by omega⟩, ← hfloor]
          generalize cvmDTruncate x ((x.exp : ℤ) - 1023) = r at *
          unfold sign
          rcases x.sign_cases with h | h
          · rw [h, if_neg (not_not.mpr rfl), BitVec.toInt_eq_toNat_of_lt (by omega), if_neg (by decide)]
            omega
          · have hneg : (-r).toInt = -(r.toNat : ℤ) := by
              rw [BitVec.toInt_eq_toNat_cond, BitVec.toNat_neg]
              omega
            rw [h, if_pos (by decide), if_pos (by decide), hneg]
            omega

/-- `cvm_d_to_u32` cuts towards zero and saturates. -/
theorem toNat_cvmDToU32 (x : CvmF64) : ((cvmDToU32 x).toNat : ℤ) = x.saturated 0 (2 ^ 32 - 1) := by
  unfold cvmDToU32
  dsimp only
  by_cases hnan : cvmDIsnan x = true
  · rw [if_pos hnan, saturated, if_pos hnan]
    rfl
  · have hnan' := Bool.eq_false_iff.mpr hnan
    have hinf : x.exp = 2047 → x.saturated 0 (2 ^ 32 - 1) = if x.sign then 0 else 2 ^ 32 - 1 :=
      fun h => saturated_of_inf (isinf_of_exp h hnan') hnan' _ _
    have hexp := x.exp_lt
    rw [if_neg hnan, x.toInt_exp]
    by_cases hneg : cvmDSign x ≠ 0#32
    · have hsign : x.sign = true := bne_iff_ne.mpr hneg
      rw [if_pos hneg]
      by_cases hzero : x.exp = 0
      · rw [saturated_of_exp_zero hzero (by decide) (by decide)]
        rfl
      · by_cases hmax : x.exp = 2047
        · rw [hinf hmax, hsign]
          rfl
        · have hfloor : 0 ≤ ⌊|x.val|⌋ := Int.floor_nonneg.mpr (abs_nonneg _)
          rw [saturated_of_normal ⟨by omega, by omega⟩, hsign, if_pos rfl, BitVec.toNat_zero]
          omega
    · have hsign : x.sign = false := bne_eq_false_iff_eq.mpr (not_not.mp hneg)
      rw [if_neg hneg]
      by_cases hzero : x.exp = 0
      · have hword : cvmDExp x = 0#32 := BitVec.eq_of_toNat_eq hzero
        rw [if_pos hword, saturated_of_exp_zero hzero (by decide) (by decide)]
        rfl
      · rw [if_neg (exp_word_ne_zero hzero)]
        by_cases hsmall : (x.exp : ℤ) - 1023 < 0
        · rw [if_pos hsmall, saturated_of_normal ⟨by omega, by omega⟩, floor_abs_val_small (by omega), neg_zero, ite_self]
          rfl
        · rw [if_neg hsmall]
          by_cases hlarge : (x.exp : ℤ) - 1023 ≥ 32
          · have hbound : x.saturated 0 (2 ^ 32 - 1) = 2 ^ 32 - 1 := by
              by_cases hmax : x.exp = 2047
              · rw [hinf hmax, hsign]
                rfl
              · have hfloor : (2 : ℤ) ^ 32 ≤ ⌊|x.val|⌋ := le_floor_abs_val (by omega)
                rw [saturated_of_normal ⟨by omega, by omega⟩, hsign, if_neg Bool.false_ne_true]
                omega
            rw [if_pos hlarge, hbound]
            rfl
          · obtain ⟨hfloor, hlt⟩ := truncate_bounds (x := x) (m := 32) (by omega) (by omega) (by decide)
            rw [if_neg hlarge, saturated_of_normal ⟨by omega, by omega⟩, ← hfloor, hsign, if_neg Bool.false_ne_true]
            omega

/-- A word comes back. -/
theorem cvmDToU32_cvmDFromU32 (v : Word) : cvmDToU32 (cvmDFromU32 v) = v := by
  apply BitVec.eq_of_toNat_eq
  have hback := toNat_cvmDToU32 (cvmDFromU32 v)
  have hv := v.isLt
  have hcast : ((v.toNat : ℤ) : ℚ) = v.toNat := Int.cast_natCast _
  rw [saturated_of_number (number_cvmDFromU32 v), ← hcast, towardZero_intCast] at hback
  omega

theorem cvmDToI32_cvmDFromI32 (v : Word) : cvmDToI32 (cvmDFromI32 v) = v := by
  apply BitVec.eq_of_toInt_eq
  have hlow := v.le_toInt
  have hhigh := v.toInt_lt
  rw [toInt_cvmDToI32, saturated_of_number (number_cvmDFromI32 v), towardZero_intCast]
  omega

end CronoVM
