import CronoVM.Lemmas.Float64Flush

/-!
# The range of results

The exponent of a product and of a quotient, of whatever operands that are neither special nor zero, and when it leaves the range. The
approximations of a square root stay in it.
-/

namespace CronoVM

open CvmF64 TwoWord

/-! ## Packed results -/

/-- The infinity of a sign. -/
def infOf (s : Word) : CvmF64 := if s ≠ 0#32 then cvmDNegInf else cvmDInf

/-- The zero of a sign. -/
def zeroOf (s : Word) : CvmF64 := if s ≠ 0#32 then cvmDNegZero else cvmDZero

/-- The end of a multiplication and of a division. -/
def packed (s : Word) (e : Int) (hi lo : Word) : CvmF64 :=
  if e ≥ 0x7FF then infOf s else if e ≤ 0 then zeroOf s else cvmDPack s (BitVec.ofInt 32 e) (hi &&& 0xFFFFF#32) lo

/-- An infinity has the largest exponent. -/
theorem exp_infOf (s : Word) : (infOf s).exp = 2047 := by
  unfold infOf
  split <;> rfl

/-- A zero has the smallest exponent. -/
theorem exp_zeroOf (s : Word) : (zeroOf s).exp = 0 := by
  unfold zeroOf
  split <;> rfl

/-- An infinity is not the NaN of the runtime. -/
theorem infOf_ne_nan (s : Word) : infOf s ≠ cvmDNan := by
  unfold infOf
  split <;> decide

section packed

variable {s hi lo : Word} (hs : s.toNat ≤ 1) {e : Int}
include hs

/-- The exponent of what is packed, cut to its range. -/
theorem exp_packed : ((packed s e hi lo).exp : Int) = if e ≥ 0x7FF then 0x7FF else if e ≤ 0 then 0 else e := by
  unfold packed
  by_cases hbig : e ≥ 0x7FF
  · rw [if_pos hbig, if_pos hbig, exp_infOf]
    rfl
  · rw [if_neg hbig, if_neg hbig]
    by_cases hsmall : e ≤ 0
    · rw [if_pos hsmall, if_pos hsmall, exp_zeroOf]
      rfl
    · have he : (BitVec.ofInt 32 e).toNat = e.toNat := by
        rw [BitVec.toNat_ofInt]
        omega
      rw [if_neg hsmall, if_neg hsmall, exp_pack hs (by omega), he]
      omega

/-- Packing gives an infinity just above the range. -/
theorem packed_eq_infOf_iff : packed s e hi lo = infOf s ↔ 2047 ≤ e := by
  constructor
  · intro heq
    have hexp : ((packed s e hi lo).exp : Int) = _ := exp_packed hs
    rw [heq, exp_infOf] at hexp
    split at hexp
    · assumption
    · split at hexp <;> omega
  · intro hbig
    exact if_pos hbig

/-- Packing gives a zero just below the range. -/
theorem packed_eq_zeroOf_iff : packed s e hi lo = zeroOf s ↔ e ≤ 0 := by
  constructor
  · intro heq
    have hexp : ((packed s e hi lo).exp : Int) = _ := exp_packed hs
    rw [heq, exp_zeroOf] at hexp
    split at hexp
    · omega
    · split at hexp
      · assumption
      · omega
  · intro hsmall
    exact (if_neg (by omega)).trans (if_pos hsmall)

end packed

/-! ## Products and quotients -/

/-- The exponent of a product. -/
def mulExponent (a b : CvmF64) : Int := (a.exp : Int) + b.exp - 1023 + (if 2 ^ 105 ≤ a.sig * b.sig then 1 else 0)

/-- The exponent of a quotient. -/
def divExponent (a b : CvmF64) : Int := (a.exp : Int) - b.exp + 1023 - (if a.sig < b.sig then 1 else 0)

/-- A product is packed with the exponent computed for it. -/
theorem cvmDMulFinite_packed (s : Word) (a b : CvmF64) : ∃ hi lo, cvmDMulFinite s a b = packed s (mulExponent a b) hi lo := by
  have hwords : fourWords (cvmDMulWords a.full a.lo b.full b.lo) = a.sig * b.sig := fourWords_cvmDMulWords _ _ _ _
  obtain ⟨w0, w1, w2, w3, hw⟩ : ∃ w0 w1 w2 w3, cvmDMulWords a.full a.lo b.full b.lo = (w0, w1, w2, w3) := ⟨_, _, _, _, rfl⟩
  have hlo : 2 ^ 52 * 2 ^ 52 ≤ a.sig * b.sig := Nat.mul_le_mul a.sig_lo b.sig_lo
  have hhi : a.sig * b.sig < 2 ^ 53 * 2 ^ 53 := Nat.mul_lt_mul'' a.sig_hi b.sig_hi
  rw [← Nat.pow_add] at hlo hhi
  rw [hw] at hwords
  obtain ⟨extra, hextra, hle, hlo', hhi', -⟩ := mul_significand hwords hlo hhi
  have hexp : mulExponent a b = (a.exp : Int) + b.exp - 1023 + extra := by
    unfold mulExponent
    generalize a.sig * b.sig = n at *
    obtain rfl | rfl := Nat.le_one_iff_eq_zero_or_eq_one.mp hle
    · rw [if_neg (by omega)]
      rfl
    · rw [if_pos (by omega)]
      rfl
  have hfinite : cvmDMulFinite s a b = cvmDMulResult s (cvmDExp a) (cvmDExp b) (cvmDMulWords a.full a.lo b.full b.lo).2.1
    (cvmDMulWords a.full a.lo b.full b.lo).2.2.1 (cvmDMulWords a.full a.lo b.full b.lo).2.2.2 := rfl
  rw [hfinite, hw, cvmDMulResult, a.toInt_exp, b.toInt_exp, hextra, hexp]
  exact ⟨_, _, rfl⟩

/-- The dividend is doubled once at most. -/
theorem preshift_eq {a b k : Nat} (hb : b < 2 * a) (hle : b ≤ a * 2 ^ k) (hlt : a * 2 ^ k < 2 * b) : k = if a < b then 1 else 0 := by
  match k with
  | 0 => rw [if_neg (by omega)]
  | 1 => rw [if_pos (by omega)]
  | n + 2 =>
    have hpos := Nat.two_pow_pos n
    have hge : a * 4 * 1 ≤ a * 4 * 2 ^ n := Nat.mul_le_mul_left _ hpos
    have hpow : a * 2 ^ (n + 2) = a * 4 * 2 ^ n := by
      rw [Nat.pow_add, Nat.mul_assoc, Nat.mul_comm (2 ^ n)]
    omega

/-- A quotient below two has no bit in which the rounding could carry out of 53. -/
theorem quotient_room {n b q r : Nat} (hb : b < 2 ^ 53) (hn : n < 2 * b) (h : n * 2 ^ 53 = q * b + r) : q ≤ 2 ^ 54 - 2 := by
  by_contra hgt
  have hge : (2 ^ 54 - 1) * b ≤ q * b := Nat.mul_le_mul_right _ (by omega)
  omega

/-- A quotient is packed with the exponent computed for it. -/
theorem cvmDDivFinite_packed (s : Word) (a b : CvmF64) : ∃ hi lo, cvmDDivFinite s a b = packed s (divExponent a b) hi lo := by
  have halo := a.sig_lo
  have hbhi := b.sig_hi
  obtain ⟨k, hadjust, hnum, hle, hlt⟩ := dividend_num a b
  obtain ⟨-, hquo, hquo', heq⟩ := dividesTo_divState a b (Nat.le_refl 53)
  rw [hnum] at heq
  have hk := preshift_eq (by omega) hle hlt
  have hroom : num (a.divState b 53).qHi (a.divState b 53).qLo ≤ 2 ^ 54 - 2 := quotient_room hbhi hlt heq
  obtain ⟨j, hexp, hsig, hsig52, -⟩ := cvmDDivRoundRne_num (a.divState b 53).rHi (a.divState b 53).rLo
    ((a.exp : Int) - b.exp + 1023 + -(k : Int)) hquo hquo'
  have hj : j = 0 := by
    by_contra hne
    have hpow : 2 ^ 1 ≤ 2 ^ j := Nat.pow_le_pow_right Nat.two_pos (Nat.pos_of_ne_zero hne)
    have hbig : 2 ^ 52 * 2 ^ 1 ≤ _ := Nat.mul_le_mul hsig52 hpow
    rw [hsig] at hbig
    split at hbig <;> omega
  have hdiv : (a.exp : Int) - b.exp + 1023 + -(k : Int) = divExponent a b := by
    rw [divExponent, hk]
    split <;> rfl
  rw [hj, hdiv, Int.natCast_zero, Int.add_zero] at hexp
  rw [cvmDDivFinite_eq, hadjust, a.toInt_exp, b.toInt_exp, hdiv, cvmDDivResult, hexp]
  exact ⟨_, _, rfl⟩

/-! ## Multiplication -/

section products

variable {a b : CvmF64}

/-- The product of two finite operands other than zero. -/
theorem cvmDMul_of_finite (ha : a.exp < 2047) (hb : b.exp < 2047) (haz : cvmDIszero a = false) (hbz : cvmDIszero b = false) :
    ∃ hi lo, cvmDMul a b = packed (cvmDSign a ^^^ cvmDSign b) (mulExponent a b) hi lo := by
  obtain ⟨hi, lo, hfinite⟩ := cvmDMulFinite_packed (cvmDSign a ^^^ cvmDSign b) a b
  refine ⟨hi, lo, Eq.trans ?_ hfinite⟩
  rw [cvmDMul, isnan_of_exp_lt ha, isnan_of_exp_lt hb, isinf_of_exp_lt ha, isinf_of_exp_lt hb, haz, hbz]
  rfl

/-- A finite product with a zero is a zero. -/
theorem cvmDMul_of_zero (ha : a.exp < 2047) (hb : b.exp < 2047) (hzero : (cvmDIszero a || cvmDIszero b) = true) :
    cvmDMul a b = zeroOf (cvmDSign a ^^^ cvmDSign b) := by
  rw [cvmDMul, isnan_of_exp_lt ha, isnan_of_exp_lt hb, isinf_of_exp_lt ha, isinf_of_exp_lt hb, hzero]
  rfl

/-- An infinity times a zero is no number, an infinity times anything else is. -/
theorem cvmDMul_of_inf (hnan : (cvmDIsnan a || cvmDIsnan b) = false) (hinf : (cvmDIsinf a || cvmDIsinf b) = true) :
    cvmDMul a b = if (cvmDIszero a || cvmDIszero b) = true then cvmDNan else infOf (cvmDSign a ^^^ cvmDSign b) := by
  rw [cvmDMul, hnan]
  rcases Bool.eq_false_or_eq_true (cvmDIsinf a) with ha | ha
  · rw [ha, iszero_of_exp_pos (x := a) (by rw [exp_of_isinf ha]; decide), Bool.false_or]
    rfl
  · rw [ha, Bool.false_or] at hinf
    rw [ha, hinf, iszero_of_exp_pos (x := b) (by rw [exp_of_isinf hinf]; decide), Bool.or_false]
    rfl

/-- When a subnormal operand of a product may be replaced by zero. -/
theorem cvmDMul_flush_iff (a b : CvmF64) : FlushStable cvmDMul a b ↔ (a.IsSubnormal ∨ b.IsSubnormal →
    cvmDIsnan a = true ∨ cvmDIsnan b = true ∨ a.exp + b.exp < 1023 ∨ (a.exp + b.exp = 1023 ∧ a.sig * b.sig < 2 ^ 105)) := by
  rcases Bool.eq_false_or_eq_true (cvmDIsnan a || cvmDIsnan b) with hnan | hnan
  · refine iff_of_true (FlushStable.of_nan (c := cvmDNan) (fun _ _ h => if_pos h) hnan) fun _ => ?_
    rw [Bool.or_eq_true_iff] at hnan
    exact hnan.imp_right Or.inl
  by_cases hsub : a.IsSubnormal ∨ b.IsSubnormal
  swap
  · have hne := not_or.mp hsub
    exact iff_of_true (FlushStable.of_not hne.1 hne.2) fun h => absurd h hsub
  obtain ⟨hna, hnb⟩ := Bool.or_eq_false_iff.mp hnan
  rcases Bool.eq_false_or_eq_true (cvmDIsinf a || cvmDIsinf b) with hinf | hinf
  · -- a zero in place of the subnormal makes the infinity a NaN
    have hstable : FlushStable cvmDMul a b ↔ cvmDMul a b = cvmDNan := by
      refine flushStable_iff_eq hsub (fun h => ?_) (fun h => ?_) (fun h h' => ?_)
      · rw [cvmDMul_of_inf (by rw [isnan_flush, hnan]) (by rw [isinf_flush, hinf]), iszero_flush h, Bool.true_or, if_pos rfl]
      · rw [cvmDMul_of_inf (by rw [isnan_flush, hnan]) (by rw [isinf_flush, hinf]), iszero_flush h, Bool.or_true, if_pos rfl]
      · rw [h.not_inf, h'.not_inf] at hinf
        exact absurd hinf Bool.false_ne_true
    have hexp : a.exp + b.exp = 2047 := by
      rcases hsub with h | h
      · rw [h.not_inf, Bool.false_or] at hinf
        rw [h.1, exp_of_isinf hinf]
      · rw [h.not_inf, Bool.or_false] at hinf
        rw [h.1, exp_of_isinf hinf]
    have hzero : (cvmDIszero a || cvmDIszero b) = false := by
      rcases hsub with h | h
      · rw [h.2, iszero_of_exp_pos (by rw [h.1] at hexp; omega), Bool.or_self]
      · rw [h.2, iszero_of_exp_pos (by rw [h.1] at hexp; omega), Bool.or_self]
    rw [hstable, cvmDMul_of_inf hnan hinf, hzero, if_neg Bool.false_ne_true, hna, hnb]
    refine iff_of_false (infOf_ne_nan _) fun h => ?_
    rcases h hsub with h | h | h
    · exact Bool.false_ne_true h
    · exact Bool.false_ne_true h
    · omega
  · obtain ⟨hia, hib⟩ := Bool.or_eq_false_iff.mp hinf
    have hma := exp_lt_of_finite hna hia
    have hmb := exp_lt_of_finite hnb hib
    have hma' : a.flush.exp < 2047 := (exp_flush a).symm ▸ hma
    have hmb' : b.flush.exp < 2047 := (exp_flush b).symm ▸ hmb
    have hzero : FlushStable cvmDMul a b ↔ cvmDMul a b = zeroOf (cvmDSign a ^^^ cvmDSign b) := by
      refine flushStable_iff_eq hsub (fun h => ?_) (fun h => ?_) (fun h _ => ?_)
      · rw [cvmDMul_of_zero hma' hmb (by rw [iszero_flush h, Bool.true_or]), sign_flush]
      · rw [cvmDMul_of_zero hma hmb' (by rw [iszero_flush h, Bool.or_true]), sign_flush]
      · rw [cvmDMul_of_zero hma' hmb' (by rw [iszero_flush h, Bool.true_or]), sign_flush, sign_flush]
    rw [hzero, hna, hnb]
    rcases Bool.eq_false_or_eq_true (cvmDIszero a || cvmDIszero b) with hz | hz
    · have hexp : a.exp + b.exp = 0 := by
        rcases hsub with h | h
        · rw [h.2, Bool.false_or] at hz
          rw [h.1, exp_of_iszero hz]
        · rw [h.2, Bool.or_false] at hz
          rw [h.1, exp_of_iszero hz]
      exact iff_of_true (cvmDMul_of_zero hma hmb hz) fun _ => Or.inr (Or.inr (Or.inl (by omega)))
    · obtain ⟨hza, hzb⟩ := Bool.or_eq_false_iff.mp hz
      obtain ⟨hi, lo, hmul⟩ := cvmDMul_of_finite hma hmb hza hzb
      rw [hmul, packed_eq_zeroOf_iff (toNat_sign_xor a b), mulExponent]
      constructor
      · intro h _
        refine Or.inr (Or.inr ?_)
        split at h <;> omega
      · intro h
        rcases h hsub with h | h | h
        · exact absurd h Bool.false_ne_true
        · exact absurd h Bool.false_ne_true
        · split <;> omega

end products

/-! ## Division -/

section quotients

variable {a b : CvmF64}

/-- The quotient of two finite operands other than zero. -/
theorem cvmDDiv_of_finite (ha : a.exp < 2047) (hb : b.exp < 2047) (haz : cvmDIszero a = false) (hbz : cvmDIszero b = false) :
    ∃ hi lo, cvmDDiv a b = packed (cvmDSign a ^^^ cvmDSign b) (divExponent a b) hi lo := by
  obtain ⟨hi, lo, hfinite⟩ := cvmDDivFinite_packed (cvmDSign a ^^^ cvmDSign b) a b
  refine ⟨hi, lo, Eq.trans ?_ hfinite⟩
  rw [cvmDDiv, isnan_of_exp_lt ha, isnan_of_exp_lt hb, isinf_of_exp_lt ha, isinf_of_exp_lt hb, haz, hbz]
  rfl

/-- A quotient with a zero. -/
theorem cvmDDiv_of_zero (ha : a.exp < 2047) (hb : b.exp < 2047) (hzero : (cvmDIszero a || cvmDIszero b) = true) :
    cvmDDiv a b = if cvmDIszero b = false then zeroOf (cvmDSign a ^^^ cvmDSign b) else if cvmDIszero a = true then cvmDNan
      else infOf (cvmDSign a ^^^ cvmDSign b) := by
  rw [cvmDDiv, isnan_of_exp_lt ha, isnan_of_exp_lt hb, isinf_of_exp_lt ha, isinf_of_exp_lt hb]
  rcases Bool.eq_false_or_eq_true (cvmDIszero b) with hz | hz
  · rw [hz]
    rfl
  · rw [hz, Bool.or_false] at hzero
    rw [hz, hzero]
    rfl

/-- An infinity over a finite operand. -/
theorem cvmDDiv_inf_left (hna : cvmDIsnan a = false) (ha : cvmDIsinf a = true) (hb : b.exp < 2047) :
    cvmDDiv a b = infOf (cvmDSign a ^^^ cvmDSign b) := by
  rw [cvmDDiv, hna, isnan_of_exp_lt hb, isinf_of_exp_lt hb, ha]
  rfl

/-- A finite operand over an infinity. -/
theorem cvmDDiv_inf_right (hnb : cvmDIsnan b = false) (hb : cvmDIsinf b = true) (ha : a.exp < 2047) :
    cvmDDiv a b = zeroOf (cvmDSign a ^^^ cvmDSign b) := by
  rw [cvmDDiv, hnb, isnan_of_exp_lt ha, isinf_of_exp_lt ha, hb]
  rfl

/-- A subnormal dividend: the quotient must be too small for a double. -/
theorem cvmDDiv_flush_left (ha : a.IsSubnormal) (hb : ¬b.IsSubnormal) (hnan : cvmDIsnan b = false) :
    FlushStable cvmDDiv a b ↔ 1023 ≤ b.exp ∨ (b.exp = 1022 ∧ a.sig < b.sig) := by
  have hma : a.exp < 2047 := by rw [ha.1]; decide
  have hmf : a.flush.exp < 2047 := (exp_flush a).symm ▸ hma
  rw [flushStable_left hb]
  rcases Bool.eq_false_or_eq_true (cvmDIsinf b) with hinf | hinf
  · have hexp := exp_of_isinf hinf
    refine iff_of_true ?_ (by omega)
    rw [cvmDDiv_inf_right hnan hinf hma, cvmDDiv_inf_right hnan hinf hmf, sign_flush]
  have hmb := exp_lt_of_finite hnan hinf
  rw [cvmDDiv_of_zero hmf hmb (by rw [iszero_flush ha, Bool.true_or]), sign_flush, iszero_flush ha]
  rcases Bool.eq_false_or_eq_true (cvmDIszero b) with hz | hz
  · have hexp := exp_of_iszero hz
    rw [cvmDDiv_of_zero hma hmb (by rw [hz, Bool.or_true]), hz, ha.2, if_neg (by decide), if_pos rfl, if_neg (by decide)]
    exact iff_of_false (infOf_ne_nan _).symm (by omega)
  · obtain ⟨hi, lo, hdiv⟩ := cvmDDiv_of_finite hma hmb ha.2 hz
    rw [hdiv, hz, if_pos rfl, eq_comm, packed_eq_zeroOf_iff (toNat_sign_xor a b), divExponent, ha.1]
    split <;> omega

/-- A subnormal divisor: the quotient must be too large for a double. -/
theorem cvmDDiv_flush_right (hb : b.IsSubnormal) (ha : ¬a.IsSubnormal) (hnan : cvmDIsnan a = false) :
    FlushStable cvmDDiv a b ↔ 1025 ≤ a.exp ∨ (a.exp = 1024 ∧ b.sig ≤ a.sig) := by
  have hmb : b.exp < 2047 := by rw [hb.1]; decide
  have hmf : b.flush.exp < 2047 := (exp_flush b).symm ▸ hmb
  rw [flushStable_right ha]
  rcases Bool.eq_false_or_eq_true (cvmDIsinf a) with hinf | hinf
  · have hexp := exp_of_isinf hinf
    refine iff_of_true ?_ (by omega)
    rw [cvmDDiv_inf_left hnan hinf hmb, cvmDDiv_inf_left hnan hinf hmf, sign_flush]
  have hma := exp_lt_of_finite hnan hinf
  rw [cvmDDiv_of_zero hma hmf (by rw [iszero_flush hb, Bool.or_true]), sign_flush, iszero_flush hb, if_neg (by decide)]
  rcases Bool.eq_false_or_eq_true (cvmDIszero a) with hz | hz
  · have hexp := exp_of_iszero hz
    rw [cvmDDiv_of_zero hma hmb (by rw [hz, Bool.true_or]), hz, hb.2, if_pos rfl, if_pos rfl]
    refine iff_of_false (fun h => ?_) (by omega)
    have hfields := congrArg CvmF64.exp h
    rw [exp_zeroOf] at hfields
    exact absurd hfields (by decide)
  · obtain ⟨hi, lo, hdiv⟩ := cvmDDiv_of_finite hma hmb hz hb.2
    rw [hdiv, hz, if_neg Bool.false_ne_true, eq_comm, packed_eq_infOf_iff (toNat_sign_xor a b), divExponent, hb.1]
    split <;> omega

/-- When a subnormal operand of a quotient may be replaced by zero. -/
theorem cvmDDiv_flush_iff (a b : CvmF64) : FlushStable cvmDDiv a b ↔
    (a.IsSubnormal → 1023 ≤ b.exp ∨ (b.exp = 1022 ∧ a.sig < b.sig)) ∧
      (b.IsSubnormal → 1025 ≤ a.exp ∨ (a.exp = 1024 ∧ b.sig ≤ a.sig)) := by
  rcases Bool.eq_false_or_eq_true (cvmDIsnan a || cvmDIsnan b) with hnan | hnan
  · refine iff_of_true (FlushStable.of_nan (c := cvmDNan) (fun _ _ h => if_pos h) hnan) ⟨fun h => ?_, fun h => ?_⟩
    · rw [h.not_nan, Bool.false_or] at hnan
      rw [exp_of_isnan hnan]
      exact Or.inl (by decide)
    · rw [h.not_nan, Bool.or_false] at hnan
      rw [exp_of_isnan hnan]
      exact Or.inl (by decide)
  obtain ⟨hna, hnb⟩ := Bool.or_eq_false_iff.mp hnan
  by_cases ha : a.IsSubnormal
  · by_cases hb : b.IsSubnormal
    · -- the two zeros give an infinity and a zero
      have hma : a.exp < 2047 := by rw [ha.1]; decide
      have hmb : b.exp < 2047 := by rw [hb.1]; decide
      have hleft := cvmDDiv_of_zero ((exp_flush a).symm ▸ hma) hmb (by rw [iszero_flush ha, Bool.true_or])
      have hright := cvmDDiv_of_zero hma ((exp_flush b).symm ▸ hmb) (by rw [iszero_flush hb, Bool.or_true])
      rw [hb.2, if_pos rfl] at hleft
      rw [iszero_flush hb, ha.2, if_neg (by decide), if_neg (by decide)] at hright
      refine iff_of_false ?_ fun h => ?_
      · rintro ⟨h, h', -⟩
        have hexp := congrArg CvmF64.exp (h.trans h'.symm)
        rw [hleft, hright, exp_zeroOf, exp_infOf] at hexp
        exact absurd hexp (by decide)
      · have hlarge := h.1 ha
        have hexp := hb.1
        omega
    · rw [cvmDDiv_flush_left ha hb hnb]
      exact ⟨fun h => ⟨fun _ => h, fun h => absurd h hb⟩, fun h => h.1 ha⟩
  · by_cases hb : b.IsSubnormal
    · rw [cvmDDiv_flush_right hb ha hna]
      exact ⟨fun h => ⟨fun h => absurd h ha, fun _ => h⟩, fun h => h.2 hb⟩
    · exact iff_of_true (FlushStable.of_not ha hb) ⟨fun h => absurd h ha, fun h => absurd h hb⟩

end quotients

/-! ## Square roots -/

/-- Positive, of an exponent that is not below a bound. -/
structure AtLeast (n : Nat) (x : CvmF64) : Prop where
  sign : x.sign = false
  not_nan : cvmDIsnan x = false
  exp : n ≤ x.exp

/-- The sign word is zero for positive numbers. -/
theorem CvmF64.sign_eq_zero_iff (x : CvmF64) : cvmDSign x = 0#32 ↔ x.sign = false := by
  rw [sign, bne_eq_false_iff_eq]

/-- Infinity is above every exponent. -/
theorem atLeast_inf {n : Nat} (hn : n ≤ 2047) : AtLeast n cvmDInf where
  sign := rfl
  not_nan := rfl
  exp := hn

/-- What is packed with a large exponent. -/
theorem atLeast_pack {n : Nat} {e m lo : Word} (he : e.toNat < 2047) (hn : n ≤ e.toNat) : AtLeast n (cvmDPack 0#32 e m lo) := by
  have hs : (0#32 : Word).toNat ≤ 1 := by decide
  have hexp : (cvmDPack 0#32 e m lo).exp = e.toNat := exp_pack hs he
  constructor
  · rw [sign_pack hs]
    rfl
  · exact isnan_of_exp_lt (by rw [hexp]; exact he)
  · rw [hexp]
    exact hn

/-- The same for a computed exponent, below the range and above it. -/
theorem atLeast_packed {n : Nat} {e : Int} {hi lo : Word} (hn : n ≤ 2047) (he : n ≤ e ∨ n = 0) : AtLeast n (packed 0#32 e hi lo) := by
  unfold packed
  by_cases hbig : e ≥ 0x7FF
  · rw [if_pos hbig]
    exact atLeast_inf hn
  · rw [if_neg hbig]
    by_cases hsmall : e ≤ 0
    · rw [if_pos hsmall]
      exact ⟨rfl, rfl, by omega⟩
    · have htoNat : (BitVec.ofInt 32 e).toNat = e.toNat := by
        rw [BitVec.toNat_ofInt]
        omega
      rw [if_neg hsmall]
      exact atLeast_pack (by omega) (by omega)

section roots

variable {x y z : CvmF64} {n : Nat}

/-- A positive subnormal over a positive number is no NaN and not negative. -/
theorem cvmDDiv_atLeast (hx : x.IsSubnormal) (hsign : x.sign = false) (hy : AtLeast 1 y) : AtLeast 0 (cvmDDiv x y) := by
  have hmx : x.exp < 2047 := by rw [hx.1]; decide
  have hs : cvmDSign x ^^^ cvmDSign y = 0#32 := by
    rw [x.sign_eq_zero_iff.mpr hsign, y.sign_eq_zero_iff.mpr hy.sign]
    rfl
  rcases Bool.eq_false_or_eq_true (cvmDIsinf y) with hinf | hinf
  · rw [cvmDDiv_inf_right hy.not_nan hinf hmx, hs]
    exact ⟨rfl, rfl, Nat.zero_le _⟩
  · obtain ⟨hi, lo, hdiv⟩ := cvmDDiv_of_finite hmx (exp_lt_of_finite hy.not_nan hinf) hx.2 (iszero_of_exp_pos hy.exp)
    rw [hdiv, hs]
    exact atLeast_packed (by decide) (Or.inr rfl)

/-- An aligned sum has the exponent of its larger operand at least. -/
theorem cvmDAddAligned_atLeast {e ah al bh bl : Word} (he : e.toNat < 2047) (hn : n ≤ e.toNat) :
    AtLeast n (cvmDAddAligned 0#32 e ah al bh bl) := by
  unfold cvmDAddAligned
  dsimp only
  generalize al + bl = rLo
  generalize ah + bh + (if rLo < al then 1#32 else 0#32) = rHi
  by_cases hover : rHi &&& 0x200000#32 ≠ 0#32
  · have hexp : (e + 1#32).toNat = e.toNat + 1 := toNat_add_of_lt (by change e.toNat + 1 < 2 ^ 32; omega)
    rw [if_pos hover]
    by_cases hbig : e + 1#32 ≥ 0x7FF#32
    · rw [if_pos hbig]
      exact atLeast_inf (by omega)
    · have hlt : (e + 1#32).toNat < 2047 := Nat.lt_of_not_le fun h => hbig (BitVec.le_def.mpr h)
      rw [if_neg hbig]
      exact atLeast_pack hlt (by omega)
  · rw [if_neg hover]
    exact atLeast_pack he hn

/-- A sum of positive numbers is no smaller than its larger operand's exponent says. -/
theorem cvmDAddOrdered_atLeast (hy : AtLeast n y) (hmax : y.exp < 2047) (hz : z.sign = false) : AtLeast n (cvmDAddOrdered y z) := by
  have hsy := y.sign_eq_zero_iff.mpr hy.sign
  have hsigns : (cvmDSign y != cvmDSign z) = false := by
    rw [hsy, z.sign_eq_zero_iff.mpr hz]
    rfl
  rw [cvmDAddOrdered_eq]
  split
  · exact hy
  · rw [hsigns, if_neg Bool.false_ne_true, hsy]
    exact cvmDAddAligned_atLeast hmax hy.exp

/-- A sum of positive numbers is not below the first. -/
theorem cvmDAdd_atLeast (hn : 0 < n) (hy : AtLeast n y) (hz : AtLeast 0 z) : AtLeast n (cvmDAdd y z) := by
  have hyn := hy.exp
  have hlt := y.exp_lt
  rcases Bool.eq_false_or_eq_true (cvmDIsinf y) with hiy | hiy
  · have hsigns : (cvmDSign y != cvmDSign z) = false := by
      rw [y.sign_eq_zero_iff.mpr hy.sign, z.sign_eq_zero_iff.mpr hz.sign]
      rfl
    have hadd : cvmDAdd y z = y := by
      rw [cvmDAdd, hy.not_nan, hz.not_nan, hiy, hsigns, Bool.and_false]
      rfl
    rw [hadd]
    exact hy
  rcases Bool.eq_false_or_eq_true (cvmDIsinf z) with hiz | hiz
  · have hadd : cvmDAdd y z = z := by
      rw [cvmDAdd, hy.not_nan, hz.not_nan, hiy, hiz]
      rfl
    have hexp := exp_of_isinf hiz
    rw [hadd]
    exact ⟨hz.sign, hz.not_nan, by omega⟩
  have hpos := iszero_of_exp_pos (x := y) (by omega)
  rcases Bool.eq_false_or_eq_true (cvmDIszero z) with hzz | hzz
  · rw [cvmDAdd_zero_right hzz hy.not_nan hpos]
    exact hy
  have hmy := exp_lt_of_finite hy.not_nan hiy
  have hmz := exp_lt_of_finite hz.not_nan hiz
  rw [cvmDAdd_of_finite hmy hmz hpos hzz]
  by_cases hmag : y.mag < z.mag
  · have hfz := z.frac_lt
    have hmagy := y.mag_eq
    have hmagz := z.mag_eq
    rw [if_pos hmag]
    exact cvmDAddOrdered_atLeast ⟨hz.sign, hz.not_nan, by omega⟩ hmz hy.sign
  · rw [if_neg hmag]
    exact cvmDAddOrdered_atLeast hy hmy hz.sign

/-- Halving lowers the exponent by one. -/
theorem cvmDMul_half_atLeast (hn : 0 < n) (hy : AtLeast (n + 1) y) : AtLeast n (cvmDMul y cvmDHalf) := by
  have hyn := hy.exp
  have hlt := y.exp_lt
  have hs : cvmDSign y ^^^ cvmDSign cvmDHalf = 0#32 := by
    rw [y.sign_eq_zero_iff.mpr hy.sign]
    decide
  have hpos := iszero_of_exp_pos (x := y) (by omega)
  rcases Bool.eq_false_or_eq_true (cvmDIsinf y) with hinf | hinf
  · have hmul : cvmDMul y cvmDHalf = _ := cvmDMul_of_inf (by rw [hy.not_nan]; rfl) (by rw [hinf]; rfl)
    rw [hmul, hpos, hs]
    exact atLeast_inf (by omega)
  · have hmax := exp_lt_of_finite hy.not_nan hinf
    obtain ⟨hi, lo, hmul⟩ := cvmDMul_of_finite hmax (show cvmDHalf.exp < 2047 by decide) hpos (show cvmDIszero cvmDHalf = false by decide)
    have hsig : cvmDHalf.sig = 2 ^ 52 := by decide
    have hexp : cvmDHalf.exp = 1022 := by decide
    have hsy := y.sig_hi
    have hsmall : ¬2 ^ 105 ≤ y.sig * 2 ^ 52 := by omega
    rw [hmul, hs, mulExponent, hsig, hexp, if_neg hsmall]
    exact atLeast_packed (by omega) (Or.inl (by omega))

/-- The approximations of the root of a subnormal stay far above zero. -/
theorem cvmFsqrtLoop_atLeast (hx : x.IsSubnormal) (hsign : x.sign = false) (k m : Nat) (hm : 0 < m) (h : m + k = 511) :
    AtLeast m (cvmFsqrtLoop x k) := by
  induction k generalizing m with
  | zero =>
    have hexp : cvmDExp x = 0#32 := BitVec.eq_of_toNat_eq hx.1
    have hseed : cvmFsqrtSeed x = cvmDPack 0#32 511#32 0#32 0#32 := by
      rw [cvmFsqrtSeed, hexp]
      rfl
    rw [cvmFsqrtLoop, hseed]
    exact atLeast_pack (by decide) (Nat.le_of_eq h)
  | succ k ih =>
    have hloop := ih (m + 1) (Nat.succ_pos m) (by omega)
    have hdiv := cvmDDiv_atLeast hx hsign ⟨hloop.sign, hloop.not_nan, Nat.le_trans (Nat.succ_pos m) hloop.exp⟩
    exact cvmDMul_half_atLeast hm (cvmDAdd_atLeast (Nat.succ_pos m) hloop hdiv)

/-- The square root tells a subnormal from zero. -/
theorem cvmFsqrt_flush_iff (x : CvmF64) : cvmFsqrt x.flush = cvmFsqrt x ↔ ¬x.IsSubnormal := by
  by_cases h : x.IsSubnormal
  · have hzero : cvmFsqrt x.flush = x.flush := by
      rw [cvmFsqrt, h.flush_not_nan, iszero_flush h]
      rfl
    refine iff_of_false (fun heq => ?_) (not_not.mpr h)
    have hexp := congrArg CvmF64.exp heq
    rw [hzero, exp_flush, h.1, cvmFsqrt, h.not_nan, h.2, if_neg Bool.false_ne_true, if_neg Bool.false_ne_true] at hexp
    by_cases hsign : cvmDSign x = 0#32
    · have hroot := (cvmFsqrtLoop_atLeast h (x.sign_eq_zero_iff.mp hsign) 6 505 (by decide) rfl).exp
      rw [if_neg (not_not.mpr hsign), h.not_inf, if_neg Bool.false_ne_true] at hexp
      omega
    · rw [if_pos hsign] at hexp
      exact absurd hexp (by decide)
  · rw [flush_of_not h]
    exact iff_of_true rfl h

end roots

end CronoVM
