import CronoVM.Lemmas.Float64Div
import CronoVM.Lemmas.Float64Mul
import CronoVM.Lemmas.Float64Order
import CronoVM.Runtime.Float64Convert

/-!
# Subnormal operands

The significand of a subnormal operand is built with a leading one. What each operation makes of that, and when the zero of the same sign
gives the same result.
-/

namespace CronoVM

open TwoWord

namespace CvmF64

/-! ## Flushing -/

/-- Not zero and without a leading one. -/
def IsSubnormal (x : CvmF64) : Prop := x.exp = 0 ∧ cvmDIszero x = false

instance (x : CvmF64) : Decidable x.IsSubnormal := inferInstanceAs (Decidable (_ ∧ _))

/-- A subnormal is replaced by the zero of its sign. -/
def flush (x : CvmF64) : CvmF64 := if x.IsSubnormal then ⟨0#32, x.hi &&& 0x80000000#32⟩ else x

/-- A number that is no denormal is not flushed. -/
theorem flush_of_not {x : CvmF64} (h : ¬x.IsSubnormal) : x.flush = x := if_neg h

variable {x : CvmF64}

/-- A flushed number has its sign only. -/
theorem hi_flush (h : x.IsSubnormal) : x.flush.hi.toNat = 2 ^ 31 * (cvmDSign x).toNat := by
  have hand : (x.hi &&& 0x80000000#32).toNat = (x.hi.toNat.testBit 31).toNat * 2 ^ 31 := by
    rw [BitVec.toNat_and]
    exact Nat.and_two_pow x.hi.toNat 31
  rw [flush, if_pos h, hand, toNat_sign, Nat.mul_comm, Nat.toNat_testBit, Nat.pow_one]

theorem lo_flush (h : x.IsSubnormal) : x.flush.lo = 0#32 := by
  rw [flush, if_pos h]

/-- Flushing keeps the sign. -/
theorem sign_flush (x : CvmF64) : cvmDSign x.flush = cvmDSign x := by
  by_cases h : x.IsSubnormal
  · apply BitVec.eq_of_toNat_eq
    have hle := x.toNat_sign_le
    rw [toNat_sign, hi_flush h]
    omega
  · rw [flush_of_not h]

/-- Flushing keeps the exponent. -/
theorem exp_flush (x : CvmF64) : x.flush.exp = x.exp := by
  by_cases h : x.IsSubnormal
  · have hle := x.toNat_sign_le
    rw [h.1, exp, toNat_exp, hi_flush h]
    omega
  · rw [flush_of_not h]

/-- Its magnitude is zero. -/
theorem mag_flush (h : x.IsSubnormal) : x.flush.mag = 0 := by
  have hexp := (exp_flush x).trans h.1
  have hmhi := x.flush.toNat_mhi
  rw [hi_flush h] at hmhi
  rw [mag_eq, hexp, frac, num, lo_flush h]
  have hzero : (0#32 : Word).toNat = 0 := rfl
  omega

/-- It is a zero. -/
theorem iszero_flush (h : x.IsSubnormal) : cvmDIszero x.flush = true := (isZero_iff _).mpr (mag_flush h)

/-! ## Exponents and classes -/

/-- A number with a smaller exponent is no NaN. -/
theorem isnan_of_exp_lt (h : x.exp < 2047) : cvmDIsnan x = false := by
  have hne : (cvmDExp x == 0x7FF#32) = false := beq_eq_false_iff_ne.mpr fun he => Nat.ne_of_lt h (congrArg BitVec.toNat he)
  rw [cvmDIsnan, hne, Bool.false_and]

/-- It is no infinity either. -/
theorem isinf_of_exp_lt (h : x.exp < 2047) : cvmDIsinf x = false := by
  have hne : (cvmDExp x == 0x7FF#32) = false := beq_eq_false_iff_ne.mpr fun he => Nat.ne_of_lt h (congrArg BitVec.toNat he)
  rw [cvmDIsinf, hne, Bool.false_and, Bool.false_and]

/-- A number with a positive exponent is no zero. -/
theorem iszero_of_exp_pos (h : 0 < x.exp) : cvmDIszero x = false := by
  have hne : (cvmDExp x == 0#32) = false := beq_eq_false_iff_ne.mpr fun he => Nat.ne_of_gt h (congrArg BitVec.toNat he)
  rw [cvmDIszero, hne, Bool.false_and, Bool.false_and]

/-- An infinity has the largest exponent. -/
theorem exp_of_isinf (h : cvmDIsinf x = true) : x.exp = 2047 := by
  by_contra hne
  have hlt := x.exp_lt
  rw [isinf_of_exp_lt (by omega)] at h
  exact Bool.false_ne_true h

/-- So has a NaN. -/
theorem exp_of_isnan (h : cvmDIsnan x = true) : x.exp = 2047 := by
  by_contra hne
  have hlt := x.exp_lt
  rw [isnan_of_exp_lt (by omega)] at h
  exact Bool.false_ne_true h

/-- A zero has the smallest. -/
theorem exp_of_iszero (h : cvmDIszero x = true) : x.exp = 0 := by
  by_contra hne
  rw [iszero_of_exp_pos (Nat.pos_of_ne_zero hne)] at h
  exact Bool.false_ne_true h

/-- The greatest exponent is that of a NaN or an infinity. -/
theorem isinf_of_exp (h : x.exp = 2047) (hnan : cvmDIsnan x = false) : cvmDIsinf x = true := by
  have heq : (cvmDExp x == 0x7FF#32) = true := beq_iff_eq.mpr (BitVec.eq_of_toNat_eq h)
  rw [cvmDIsnan, heq, Bool.true_and, Bool.or_eq_false_iff, bne_eq_false_iff_eq, bne_eq_false_iff_eq] at hnan
  rw [cvmDIsinf, heq, hnan.1, hnan.2]
  rfl

/-- The exponent of a finite number is below the greatest. -/
theorem exp_lt_of_finite (hnan : cvmDIsnan x = false) (hinf : cvmDIsinf x = false) : x.exp < 2047 := by
  have hlt := x.exp_lt
  by_contra hge
  rw [isinf_of_exp (by omega) hnan] at hinf
  exact Bool.false_ne_true hinf.symm

/-- The least exponent is that of a zero or a subnormal. -/
theorem iszero_of_exp (h : x.exp = 0) (hsub : ¬x.IsSubnormal) : cvmDIszero x = true := by
  by_contra hzero
  exact hsub ⟨h, Bool.not_eq_true _ ▸ hzero⟩

namespace IsSubnormal

variable (h : x.IsSubnormal)
include h

theorem not_nan : cvmDIsnan x = false := isnan_of_exp_lt (by rw [h.1]; decide)

theorem not_inf : cvmDIsinf x = false := isinf_of_exp_lt (by rw [h.1]; decide)

theorem flush_not_nan : cvmDIsnan x.flush = false := isnan_of_exp_lt (by rw [exp_flush, h.1]; decide)

theorem flush_not_inf : cvmDIsinf x.flush = false := isinf_of_exp_lt (by rw [exp_flush, h.1]; decide)

end IsSubnormal

/-- Flushing makes no NaN and takes none away. -/
theorem isnan_flush (x : CvmF64) : cvmDIsnan x.flush = cvmDIsnan x := by
  by_cases h : x.IsSubnormal
  · rw [h.not_nan, h.flush_not_nan]
  · rw [flush_of_not h]

/-- The same for infinities. -/
theorem isinf_flush (x : CvmF64) : cvmDIsinf x.flush = cvmDIsinf x := by
  by_cases h : x.IsSubnormal
  · rw [h.not_inf, h.flush_not_inf]
  · rw [flush_of_not h]

/-- The key of a flushed operand. -/
theorem key_flush (x : CvmF64) : x.flush.key = if x.IsSubnormal then 0 else x.key := by
  by_cases h : x.IsSubnormal
  · have hmag := mag_flush h
    rw [if_pos h, key, hmag]
    split <;> rfl
  · rw [if_neg h, flush_of_not h]

/-- A subnormal is not the zero it is replaced by. -/
theorem flush_ne (h : x.IsSubnormal) : x.flush ≠ x := by
  intro heq
  have hzero := iszero_flush h
  rw [heq, h.2] at hzero
  exact Bool.false_ne_true hzero

end CvmF64

open CvmF64

/-- Replacing subnormal operands leaves the result. -/
def FlushStable {α : Type} (f : CvmF64 → CvmF64 → α) (a b : CvmF64) : Prop :=
  f a.flush b = f a b ∧ f a b.flush = f a b ∧ f a.flush b.flush = f a b

section stable

variable {α : Type} {f : CvmF64 → CvmF64 → α} {a b : CvmF64}

/-- Where no operand is a denormal nothing is flushed. -/
theorem FlushStable.of_not (ha : ¬a.IsSubnormal) (hb : ¬b.IsSubnormal) : FlushStable f a b := by
  rw [FlushStable, flush_of_not ha, flush_of_not hb]
  exact ⟨rfl, rfl, rfl⟩

/-- Only the left operand matters if the right one is no denormal. -/
theorem flushStable_left (hb : ¬b.IsSubnormal) : FlushStable f a b ↔ f a.flush b = f a b := by
  rw [FlushStable, flush_of_not hb]
  exact ⟨fun h => h.1, fun h => ⟨h, rfl, h⟩⟩

/-- Only the right one if the left one is none. -/
theorem flushStable_right (ha : ¬a.IsSubnormal) : FlushStable f a b ↔ f a b.flush = f a b := by
  rw [FlushStable, flush_of_not ha]
  exact ⟨fun h => h.2.1, fun h => ⟨rfl, h, h⟩⟩

/-- A function of the operands with a NaN is stable if the NaN alone gives the result. -/
theorem FlushStable.of_nan {c : α} (hf : ∀ a b, (cvmDIsnan a || cvmDIsnan b) = true → f a b = c)
    (h : (cvmDIsnan a || cvmDIsnan b) = true) : FlushStable f a b := by
  have hflush : ∀ x y : CvmF64, cvmDIsnan x = cvmDIsnan a → cvmDIsnan y = cvmDIsnan b → f x y = f a b := by
    intro x y hx hy
    rw [hf a b h, hf x y (by rw [hx, hy, h])]
  exact ⟨hflush _ _ (isnan_flush a) rfl, hflush _ _ rfl (isnan_flush b), hflush _ _ (isnan_flush a) (isnan_flush b)⟩

/-- If every replacement gives one result, then so must the operands themselves. -/
theorem flushStable_iff_eq {c : α} (hsub : a.IsSubnormal ∨ b.IsSubnormal) (hleft : a.IsSubnormal → f a.flush b = c)
    (hright : b.IsSubnormal → f a b.flush = c) (hboth : a.IsSubnormal → b.IsSubnormal → f a.flush b.flush = c) :
    FlushStable f a b ↔ f a b = c := by
  by_cases ha : a.IsSubnormal
  · by_cases hb : b.IsSubnormal
    · rw [FlushStable, hleft ha, hright hb, hboth ha hb]
      exact ⟨fun h => h.1.symm, fun h => ⟨h.symm, h.symm, h.symm⟩⟩
    · rw [flushStable_left hb, hleft ha, eq_comm]
  · rw [flushStable_right ha, hright (hsub.resolve_left ha), eq_comm]

end stable

/-! ## Sums -/

section sums

variable {a b : CvmF64}

/-- Zero plus a number that is no NaN is this number. -/
theorem cvmDAdd_zero_left (ha : cvmDIszero a = true) (hb : cvmDIsnan b = false) : cvmDAdd a b = b := by
  have hexp := exp_of_iszero ha
  rw [cvmDAdd, isnan_of_exp_lt (by rw [hexp]; decide), isinf_of_exp_lt (by rw [hexp]; decide), hb, ha]
  cases cvmDIsinf b <;> rfl

/-- So is such a number plus zero. -/
theorem cvmDAdd_zero_right (hb : cvmDIszero b = true) (hnan : cvmDIsnan a = false) (hzero : cvmDIszero a = false) : cvmDAdd a b = a := by
  have hexp := exp_of_iszero hb
  rw [cvmDAdd, isnan_of_exp_lt (x := b) (by rw [hexp]; decide), isinf_of_exp_lt (x := b) (by rw [hexp]; decide), hnan, hb, hzero]
  cases cvmDIsinf a <;> rfl

/-- Finite operands that are not zero are put in order. -/
theorem cvmDAdd_of_finite (ha : a.exp < 2047) (hb : b.exp < 2047) (haz : cvmDIszero a = false) (hbz : cvmDIszero b = false) :
    cvmDAdd a b = if a.mag < b.mag then cvmDAddOrdered b a else cvmDAddOrdered a b := by
  have hla := a.lo.isLt
  have hlb := b.lo.isLt
  have hless : (a.hi &&& 0x7FFFFFFF#32 < b.hi &&& 0x7FFFFFFF#32 ∨ (a.hi &&& 0x7FFFFFFF#32 = b.hi &&& 0x7FFFFFFF#32 ∧ a.lo < b.lo)) ↔
      a.mag < b.mag := by
    simp only [BitVec.lt_def, ← BitVec.toNat_inj, mag, num]
    omega
  rw [cvmDAdd, isnan_of_exp_lt ha, isnan_of_exp_lt hb, isinf_of_exp_lt ha, isinf_of_exp_lt hb, haz, hbz, Bool.or_self,
    if_neg Bool.false_ne_true, if_neg Bool.false_ne_true, if_neg Bool.false_ne_true, if_neg Bool.false_ne_true, if_neg Bool.false_ne_true]
  exact if_congr hless rfl rfl

/-- The fields of a double are packed to it. -/
theorem pack_fields (x : CvmF64) : cvmDPack (cvmDSign x) (cvmDExp x) (x.full &&& 0xFFFFF#32) x.lo = x := by
  have hfull : (x.full &&& 0xFFFFF#32).toNat = x.full.toNat % 2 ^ 20 := toNat_and_mask x.full 20 (by decide)
  have hhi : (cvmDPack (cvmDSign x) (cvmDExp x) (x.full &&& 0xFFFFF#32) x.lo).hi = x.hi := by
    apply BitVec.eq_of_toNat_eq
    have hexp := x.exp_lt
    rw [toNat_pack_hi x.lo x.toNat_sign_le, x.toNat_hi, hfull, toNat_full, ← exp, toNat_mhi]
    omega
  have hlo : (cvmDPack (cvmDSign x) (cvmDExp x) (x.full &&& 0xFFFFF#32) x.lo).lo = x.lo := rfl
  calc cvmDPack (cvmDSign x) (cvmDExp x) (x.full &&& 0xFFFFF#32) x.lo =
        ⟨(cvmDPack (cvmDSign x) (cvmDExp x) (x.full &&& 0xFFFFF#32) x.lo).lo,
          (cvmDPack (cvmDSign x) (cvmDExp x) (x.full &&& 0xFFFFF#32) x.lo).hi⟩ := rfl
    _ = x := by rw [hhi, hlo]

theorem num_eq_zero {hi lo : Word} (h : num hi lo = 0) : hi = 0#32 ∧ lo = 0#32 := by
  unfold num at h
  exact ⟨BitVec.eq_of_toNat_eq (show hi.toNat = 0 by omega), BitVec.eq_of_toNat_eq (show lo.toNat = 0 by omega)⟩

/-- Nothing is added. -/
theorem cvmDAddAligned_zero (s e : Word) {ah al : Word} (ha : num ah al < 2 ^ 53) :
    cvmDAddAligned s e ah al 0#32 0#32 = cvmDPack s e (ah &&& 0xFFFFF#32) al := by
  have hbit := and_bit53 ah al
  have hclear : ¬ah &&& 0x200000#32 ≠ 0#32 := by
    rw [hbit]
    omega
  unfold cvmDAddAligned
  dsimp only
  rw [BitVec.add_zero, BitVec.add_zero, if_neg (BitVec.lt_irrefl al), BitVec.add_zero, if_neg hclear]

/-- Nothing is subtracted. -/
theorem cvmDSubAligned_zero (s e : Word) {ah al : Word} (hlow : 2 ^ 52 ≤ num ah al) (hhigh : num ah al < 2 ^ 53) :
    cvmDSubAligned s e ah al 0#32 0#32 = cvmDPack s e (ah &&& 0xFFFFF#32) al := by
  have hborrow : ¬al < 0#32 := fun h => Nat.not_lt_zero _ (BitVec.lt_def.mp h)
  have hnum : num ah al ≠ 0 := by omega
  have hzero : ¬(al = 0#32 ∧ ah = 0#32) := by
    rintro ⟨rfl, rfl⟩
    exact hnum rfl
  obtain ⟨hle, hlt⟩ := leading_bounds hnum
  unfold cvmDSubAligned
  dsimp only
  rw [BitVec.sub_zero, BitVec.sub_zero, if_neg hborrow, BitVec.sub_zero, if_neg hzero]
  generalize (if ah ≠ 0#32 then 32 + cvmTopBitU32 ah else cvmTopBitU32 al) = leading at *
  have hge : 52 ≤ leading := Nat.lt_succ_iff.mp ((Nat.pow_lt_pow_iff_right Nat.one_lt_two).mp (Nat.lt_of_le_of_lt hlow hlt))
  rw [if_neg (by omega)]

/-- Something is added: the exponent or the significand changes. -/
theorem cvmDAddAligned_ne {s e ah al bh bl : Word} (hs : s.toNat ≤ 1) (hmax : e.toNat < 2047) (ha : 2 ^ 52 ≤ num ah al)
    (hsum : num ah al + num bh bl < 2 ^ 54) (hb : num bh bl ≠ 0) : (cvmDAddAligned s e ah al bh bl).exp ≠ e.toNat ∨
      (cvmDAddAligned s e ah al bh bl).sig ≠ num ah al := by
  have hnum := num_add (show num ah al + num bh bl < 2 ^ 64 by omega)
  unfold cvmDAddAligned
  dsimp only
  generalize al + bl = rLo at *
  generalize ah + bh + (if rLo < al then 1#32 else 0#32) = rHi at *
  have hbit := and_bit53 rHi rLo
  rw [hnum] at hbit
  by_cases hover : rHi &&& 0x200000#32 ≠ 0#32
  · have hexp : (e + 1#32).toNat = e.toNat + 1 := toNat_add_of_lt (by change e.toNat + 1 < 2 ^ 32; omega)
    rw [if_pos hover]
    left
    by_cases hbig : e + 1#32 ≥ 0x7FF#32
    · have hge : 2047 ≤ (e + 1#32).toNat := BitVec.le_def.mp hbig
      have hinf : (if s ≠ 0#32 then cvmDNegInf else cvmDInf).exp = 2047 := by split <;> rfl
      rw [if_pos hbig, hinf]
      omega
    · have hlt : (e + 1#32).toNat < 2047 := Nat.lt_of_not_le fun h => hbig (BitVec.le_def.mpr h)
      rw [if_neg hbig, exp_pack hs hlt, hexp]
      omega
  · have hclear := mt hbit.mpr hover
    rw [if_neg hover]
    right
    rw [sig_pack hs]
    unfold num at *
    have hlo := rLo.isLt
    omega

/-- Something is subtracted: the exponent or the significand changes. -/
theorem cvmDSubAligned_ne {s e ah al bh bl : Word} (hs : s.toNat ≤ 1) (hpos : 0 < e.toNat) (hmax : e.toNat < 2047) (ha : num ah al < 2 ^ 53)
    (hle : num bh bl ≤ num ah al) (hb : num bh bl ≠ 0) : (cvmDSubAligned s e ah al bh bl).exp ≠ e.toNat ∨
      (cvmDSubAligned s e ah al bh bl).sig ≠ num ah al := by
  have hnum := num_sub hle
  unfold cvmDSubAligned
  dsimp only
  generalize ah - bh - (if al < bl then 1#32 else 0#32) = rHi, al - bl = rLo at *
  have hlead : num rHi rLo ≠ 0 → 2 ^ (if rHi ≠ 0#32 then 32 + cvmTopBitU32 rHi else cvmTopBitU32 rLo) ≤ num rHi rLo :=
    fun hrest => (leading_bounds hrest).1
  generalize (if rHi ≠ 0#32 then 32 + cvmTopBitU32 rHi else cvmTopBitU32 rLo) = leading at *
  have hint : e.toInt = e.toNat := BitVec.toInt_eq_toNat_of_lt (by omega)
  by_cases hzero : rLo = 0#32 ∧ rHi = 0#32
  · have hexp : cvmDZero.exp = 0 := rfl
    rw [if_pos hzero, hexp]
    left
    omega
  · rw [if_neg hzero]
    by_cases hshl : (52 : Int) - leading > 0
    · rw [if_pos hshl]
      left
      by_cases hunder : e.toInt - (52 - leading) ≤ 0
      · have hexp : (if s ≠ 0#32 then cvmDNegZero else cvmDZero).exp = 0 := by split <;> rfl
        rw [if_pos hunder, hexp]
        omega
      · have hexp : (BitVec.ofInt 32 (e.toInt - (52 - leading))).toNat = e.toNat - (52 - leading) := by
          rw [BitVec.toNat_ofInt]
          omega
        rw [if_neg hunder, exp_pack hs (by omega), hexp]
        omega
    · have hrest : num rHi rLo ≠ 0 := by
        intro h
        obtain ⟨hhi, hlo⟩ := num_eq_zero h
        exact hzero ⟨hlo, hhi⟩
      have hge : 2 ^ 52 ≤ num rHi rLo := Nat.le_trans (Nat.pow_le_pow_right Nat.two_pos (by omega)) (hlead hrest)
      have hlo := rLo.isLt
      rw [if_neg hshl]
      right
      rw [sig_pack hs]
      unfold num at *
      omega

/-- A subnormal is lost in a sum with a normal number if it is shifted out whole. -/
theorem cvmDAddOrdered_eq_self_iff (ha : a.IsNormal) (hb : b.exp = 0) : cvmDAddOrdered a b = a ↔ 53 ≤ a.exp := by
  have hle : b.exp ≤ a.exp := hb ▸ Nat.zero_le _
  have hnum : num (cvmDAlign (cvmDExp a - cvmDExp b) b.full b.lo).mHi (cvmDAlign (cvmDExp a - cvmDExp b) b.full b.lo).mLo =
      b.sig / 2 ^ a.exp := by rw [num_aligned hle, hb, Nat.sub_zero]
  have hself := pack_fields a
  have hsig : num a.full a.lo = a.sig := rfl
  have hslo := a.sig_lo
  have hshi := a.sig_hi
  have hblo := b.sig_lo
  have hbhi := b.sig_hi
  rw [cvmDAddOrdered_eq]
  by_cases hge : cvmDExp a - cvmDExp b ≥ 64#32
  · have hfar : 64 ≤ (cvmDExp a - cvmDExp b).toNat := BitVec.le_def.mp hge
    rw [toNat_expDiff hle] at hfar
    rw [if_pos hge]
    exact iff_of_true rfl (by omega)
  rw [if_neg hge]
  generalize (cvmDAlign (cvmDExp a - cvmDExp b) b.full b.lo).mHi = bh, (cvmDAlign (cvmDExp a - cvmDExp b) b.full b.lo).mLo = bl at *
  by_cases hfar : 53 ≤ a.exp
  · have hzero : num bh bl = 0 := by
      rw [hnum]
      exact Nat.div_eq_of_lt (Nat.lt_of_lt_of_le hbhi (Nat.pow_le_pow_right Nat.two_pos hfar))
    obtain ⟨rfl, rfl⟩ := num_eq_zero hzero
    refine iff_of_true ?_ hfar
    split
    · rw [cvmDSubAligned_zero _ _ hslo hshi, hself]
    · rw [cvmDAddAligned_zero _ _ hshi, hself]
  · have hpow : 2 ^ a.exp ≤ 2 ^ 52 := Nat.pow_le_pow_right Nat.two_pos (by omega)
    have hpow' : 2 ^ 1 ≤ 2 ^ a.exp := Nat.pow_le_pow_right Nat.two_pos ha.1
    have hone : 1 ≤ b.sig / 2 ^ a.exp := (Nat.le_div_iff_mul_le (Nat.two_pow_pos _)).mpr (by omega)
    have hhalf : b.sig / 2 ^ a.exp ≤ b.sig / 2 := Nat.div_le_div_left hpow' Nat.two_pos
    refine iff_of_false (fun heq => ?_) hfar
    have hne : ∀ r : CvmF64, r = a → ¬(r.exp ≠ a.exp ∨ r.sig ≠ a.sig) := by
      rintro r rfl h
      exact h.elim (fun h => h rfl) (fun h => h rfl)
    refine hne _ heq ?_
    split
    · exact cvmDSubAligned_ne a.toNat_sign_le ha.1 ha.2 hshi (by omega) (by omega)
    · exact cvmDAddAligned_ne a.toNat_sign_le ha.2 hslo (by omega) (by omega)

/-- The sum of a subnormal and another number, the subnormal first. -/
theorem cvmDAdd_subnormal_left (ha : a.IsSubnormal) (hb : ¬b.IsSubnormal) (hnan : cvmDIsnan b = false) : cvmDAdd a b = b ↔ 53 ≤ b.exp := by
  rcases Bool.eq_false_or_eq_true (cvmDIsinf b) with hinf | hinf
  · have hexp := exp_of_isinf hinf
    refine iff_of_true ?_ (by omega)
    rw [cvmDAdd, ha.not_nan, ha.not_inf, hnan, hinf]
    rfl
  rcases Nat.eq_zero_or_pos b.exp with hzero | hpos
  · have hzero' := iszero_of_exp hzero hb
    rw [cvmDAdd_zero_right hzero' ha.not_nan ha.2]
    refine iff_of_false ?_ (by omega)
    rintro rfl
    exact hb ha
  · have hmax := exp_lt_of_finite hnan hinf
    have hma := a.mag_eq
    have hmb := b.mag_eq
    have hfa := a.frac_lt
    have hexp := ha.1
    rw [cvmDAdd_of_finite (by omega) hmax ha.2 (iszero_of_exp_pos hpos), if_pos (by omega)]
    exact cvmDAddOrdered_eq_self_iff ⟨hpos, hmax⟩ ha.1

/-- The sum of a subnormal and another number, the subnormal last. -/
theorem cvmDAdd_subnormal_right (hb : b.IsSubnormal) (ha : ¬a.IsSubnormal) (hnan : cvmDIsnan a = false) : cvmDAdd a b = a ↔ 53 ≤ a.exp := by
  rcases Bool.eq_false_or_eq_true (cvmDIsinf a) with hinf | hinf
  · have hexp := exp_of_isinf hinf
    refine iff_of_true ?_ (by omega)
    rw [cvmDAdd, hb.not_nan, hb.not_inf, hnan, hinf]
    rfl
  rcases Nat.eq_zero_or_pos a.exp with hzero | hpos
  · have hzero' := iszero_of_exp hzero ha
    rw [cvmDAdd_zero_left hzero' hb.not_nan]
    refine iff_of_false ?_ (by omega)
    rintro rfl
    exact ha hb
  · have hmax := exp_lt_of_finite hnan hinf
    have hma := a.mag_eq
    have hmb := b.mag_eq
    have hfb := b.frac_lt
    have hexp := hb.1
    rw [cvmDAdd_of_finite hmax (by omega) (iszero_of_exp_pos hpos) hb.2, if_neg (by omega)]
    exact cvmDAddOrdered_eq_self_iff ⟨hpos, hmax⟩ hb.1

/-- A sum does not see the flush exactly if one operand is so large that the other one is shifted out. -/
theorem cvmDAdd_flush_iff (a b : CvmF64) :
    FlushStable cvmDAdd a b ↔ (a.IsSubnormal ∨ b.IsSubnormal → 53 ≤ a.exp ∨ 53 ≤ b.exp) := by
  rcases Bool.eq_false_or_eq_true (cvmDIsnan a || cvmDIsnan b) with hnan | hnan
  · refine iff_of_true (FlushStable.of_nan (c := cvmDNan) (fun _ _ h => if_pos h) hnan) fun _ => ?_
    rw [Bool.or_eq_true_iff] at hnan
    exact hnan.imp (fun h => by rw [exp_of_isnan h]; decide) (fun h => by rw [exp_of_isnan h]; decide)
  rw [Bool.or_eq_false_iff] at hnan
  obtain ⟨hna, hnb⟩ := hnan
  by_cases ha : a.IsSubnormal
  · have hexp := ha.1
    by_cases hb : b.IsSubnormal
    · have hexp' := hb.1
      refine iff_of_false ?_ fun h => ?_
      · rintro ⟨hleft, -, hboth⟩
        rw [cvmDAdd_zero_left (iszero_flush ha) hnb] at hleft
        rw [cvmDAdd_zero_left (iszero_flush ha) hb.flush_not_nan, ← hleft] at hboth
        exact flush_ne hb hboth
      · have hfar := h (Or.inl ha)
        omega
    · rw [flushStable_left hb, cvmDAdd_zero_left (iszero_flush ha) hnb, eq_comm, cvmDAdd_subnormal_left ha hb hnb]
      exact ⟨fun h _ => Or.inr h, fun h => (h (Or.inl ha)).resolve_left (by omega)⟩
  · by_cases hb : b.IsSubnormal
    · have hexp := hb.1
      have hright : cvmDAdd a b.flush = a ∨ (cvmDIszero a = true ∧ cvmDAdd a b.flush = b.flush) := by
        rcases Bool.eq_false_or_eq_true (cvmDIszero a) with hzero | hzero
        · exact Or.inr ⟨hzero, cvmDAdd_zero_left hzero hb.flush_not_nan⟩
        · exact Or.inl (cvmDAdd_zero_right (iszero_flush hb) hna hzero)
      have hiff := cvmDAdd_subnormal_right hb ha hna
      rw [flushStable_right ha]
      rcases hright with hright | ⟨hzero, hright⟩
      · rw [hright, eq_comm, hiff]
        exact ⟨fun h _ => Or.inl h, fun h => (h (Or.inr hb)).resolve_right (by omega)⟩
      · rw [hright, cvmDAdd_zero_left hzero hnb]
        have hexp' := exp_of_iszero hzero
        refine iff_of_false (flush_ne hb) fun h => ?_
        have hfar := h (Or.inr hb)
        omega
    · exact iff_of_true (FlushStable.of_not ha hb) fun h => absurd h (not_or.mpr ⟨ha, hb⟩)

end sums

/-! ## Differences -/

section differences

variable {x : CvmF64}

/-- A denormal stays one when its sign changes. -/
theorem isSubnormal_cvmDNeg : (cvmDNeg x).IsSubnormal ↔ x.IsSubnormal := by
  have hzero : cvmDIszero (cvmDNeg x) = cvmDIszero x := by
    rw [cvmDIszero, cvmDIszero, exp_cvmDNeg, mhi_cvmDNeg]
    rfl
  rw [IsSubnormal, IsSubnormal, CvmF64.exp, exp_cvmDNeg, hzero]
  exact Iff.rfl

/-- The sign can be changed before or after the flush. -/
theorem flush_cvmDNeg : (cvmDNeg x).flush = cvmDNeg x.flush := by
  by_cases h : x.IsSubnormal
  · have hhi : (x.hi ^^^ 0x80000000#32) &&& 0x80000000#32 = (x.hi &&& 0x80000000#32) ^^^ 0x80000000#32 := xor_and _ _ _
    rw [flush, if_pos (isSubnormal_cvmDNeg.mpr h), flush, if_pos h, cvmDNeg, cvmDNeg, hhi]
  · rw [flush_of_not h, flush_of_not (mt isSubnormal_cvmDNeg.mp h)]

/-- A difference is the sum with the opposite number. -/
theorem cvmDSub_flush_iff (a b : CvmF64) :
    FlushStable cvmDSub a b ↔ (a.IsSubnormal ∨ b.IsSubnormal → 53 ≤ a.exp ∨ 53 ≤ b.exp) := by
  have hexp : (cvmDNeg b).exp = b.exp := congrArg BitVec.toNat (exp_cvmDNeg b)
  have hadd := cvmDAdd_flush_iff a (cvmDNeg b)
  rw [hexp, isSubnormal_cvmDNeg, FlushStable, flush_cvmDNeg] at hadd
  exact hadd

end differences

/-! ## Comparisons -/

section comparisons

variable {x : CvmF64}

/-- The key of a subnormal has its sign and is smaller than that of any normal number. -/
theorem key_subnormal (h : x.IsSubnormal) :
    (x.sign = false ∧ 0 < x.key ∧ x.key < 2 ^ 52) ∨ (x.sign = true ∧ x.key < 0 ∧ -2 ^ 52 < x.key) := by
  have hne : x.mag ≠ 0 := fun hmag => Bool.false_ne_true (h.2.symm.trans ((isZero_iff x).mpr hmag))
  have hmag := x.mag_eq
  have hfrac := x.frac_lt
  have hexp := h.1
  cases hsign : x.sign with
  | false =>
    have hkey : x.key = x.mag := by rw [key, hsign, if_neg Bool.false_ne_true]
    exact Or.inl ⟨rfl, by omega, by omega⟩
  | true =>
    have hkey : x.key = -x.mag := by rw [key, hsign, if_pos rfl]
    exact Or.inr ⟨rfl, by omega, by omega⟩

/-- The key of a number that is no denormal is zero or large. -/
theorem key_of_not_subnormal (h : ¬x.IsSubnormal) : (x.exp = 0 ∧ x.key = 0) ∨ (0 < x.exp ∧ (2 ^ 52 ≤ x.key ∨ x.key ≤ -2 ^ 52)) := by
  have hmag := x.mag_eq
  have hkey := x.key_cases
  rcases Nat.eq_zero_or_pos x.exp with hzero | hpos
  · have hmag0 := (isZero_iff x).mp (iszero_of_exp hzero h)
    exact Or.inl ⟨hzero, by omega⟩
  · exact Or.inr ⟨hpos, by omega⟩

/-- Equality does not see the flush if the other operand has a positive exponent. -/
theorem cvmDEq_flush_iff (a b : CvmF64) : FlushStable cvmDEq a b ↔ (a.IsSubnormal ∨ b.IsSubnormal → 0 < a.exp ∨ 0 < b.exp) := by
  rcases Bool.eq_false_or_eq_true (cvmDIsnan a || cvmDIsnan b) with hnan | hnan
  · refine iff_of_true (FlushStable.of_nan (c := false) (fun _ _ h => if_pos h) hnan) fun _ => ?_
    rw [Bool.or_eq_true_iff] at hnan
    exact hnan.imp (fun h => by rw [exp_of_isnan h]; decide) (fun h => by rw [exp_of_isnan h]; decide)
  obtain ⟨hna, hnb⟩ := Bool.or_eq_false_iff.mp hnan
  have hna' : cvmDIsnan a.flush = false := (isnan_flush a).trans hna
  have hnb' : cvmDIsnan b.flush = false := (isnan_flush b).trans hnb
  rw [FlushStable, cvmDEq_eq hna hnb, cvmDEq_eq hna' hnb, cvmDEq_eq hna hnb', cvmDEq_eq hna' hnb', key_flush, key_flush]
  simp only [decide_eq_decide]
  by_cases ha : a.IsSubnormal <;> by_cases hb : b.IsSubnormal
  · have hka := key_subnormal ha
    have hkb := key_subnormal hb
    have hea := ha.1
    have heb := hb.1
    simp only [ha, hb, if_true, true_or, true_implies, true_iff]
    refine ⟨fun h => ?_, fun h => ⟨?_, ?_, ?_⟩⟩ <;> omega
  · have hka := key_subnormal ha
    have hkb := key_of_not_subnormal hb
    have hea := ha.1
    simp only [ha, hb, if_true, if_false, true_or, true_implies, true_and]
    refine ⟨fun h => ?_, fun h => ⟨?_, ?_⟩⟩ <;> omega
  · have hka := key_of_not_subnormal ha
    have hkb := key_subnormal hb
    have heb := hb.1
    simp only [ha, hb, if_true, if_false, or_true, true_implies, true_and]
    refine ⟨fun h => ?_, fun h => ⟨?_, ?_⟩⟩ <;> omega
  · simp only [ha, hb, if_false, or_self, false_implies, and_self]

/-- An order sees it where both exponents are zero and the denormal is on the wrong side of zero. -/
theorem cvmDLt_flush_iff (a b : CvmF64) : FlushStable cvmDLt a b ↔ (a.exp = 0 → b.exp = 0 →
    ¬(a.IsSubnormal ∧ a.sign = true) ∧ ¬(b.IsSubnormal ∧ b.sign = false)) := by
  rcases Bool.eq_false_or_eq_true (cvmDIsnan a || cvmDIsnan b) with hnan | hnan
  · refine iff_of_true (FlushStable.of_nan (c := false) (fun _ _ h => if_pos h) hnan) fun ha hb => ?_
    rcases Bool.or_eq_true_iff.mp hnan with h | h
    · rw [exp_of_isnan h] at ha
      exact absurd ha (by decide)
    · rw [exp_of_isnan h] at hb
      exact absurd hb (by decide)
  obtain ⟨hna, hnb⟩ := Bool.or_eq_false_iff.mp hnan
  have hna' : cvmDIsnan a.flush = false := (isnan_flush a).trans hna
  have hnb' : cvmDIsnan b.flush = false := (isnan_flush b).trans hnb
  rw [FlushStable, cvmDLt_eq hna hnb, cvmDLt_eq hna' hnb, cvmDLt_eq hna hnb', cvmDLt_eq hna' hnb', key_flush, key_flush]
  simp only [decide_eq_decide]
  by_cases ha : a.IsSubnormal <;> by_cases hb : b.IsSubnormal
  · rcases key_subnormal ha with ⟨hsa, hka⟩ | ⟨hsa, hka⟩ <;> rcases key_subnormal hb with ⟨hsb, hkb⟩ | ⟨hsb, hkb⟩ <;>
      simp only [ha, hb, ha.1, hb.1, hsa, hsb, if_true, true_and, true_implies] <;> grind
  · have hkb := key_of_not_subnormal hb
    rcases key_subnormal ha with ⟨hsa, hka⟩ | ⟨hsa, hka⟩ <;>
      simp only [ha, hb, ha.1, hsa, if_true, if_false, true_and, false_and, true_implies] <;> grind
  · have hka := key_of_not_subnormal ha
    rcases key_subnormal hb with ⟨hsb, hkb⟩ | ⟨hsb, hkb⟩ <;>
      simp only [ha, hb, hb.1, hsb, if_true, if_false, true_and, false_and, true_implies] <;> grind
  · simp only [ha, hb, if_false, false_and, not_false_iff, and_self, implies_true]

/-- The operands in the other order. -/
theorem flushStable_swap {α : Type} {f : CvmF64 → CvmF64 → α} {a b : CvmF64} :
    FlushStable (fun x y => f y x) a b ↔ FlushStable f b a := and_left_comm

/-- A test is stable if its negation is. -/
theorem flushStable_not {f g : CvmF64 → CvmF64 → Bool} {a b : CvmF64}
    (h : ∀ x y, cvmDIsnan x = cvmDIsnan a → cvmDIsnan y = cvmDIsnan b → g x y = !f x y) : FlushStable g a b ↔ FlushStable f a b := by
  rw [FlushStable, FlushStable, h a b rfl rfl, h _ b (isnan_flush a) rfl, h a _ rfl (isnan_flush b), h _ _ (isnan_flush a) (isnan_flush b),
    Bool.not_inj_iff, Bool.not_inj_iff, Bool.not_inj_iff]

theorem cvmDNe_flush_iff (a b : CvmF64) : FlushStable cvmDNe a b ↔ (a.IsSubnormal ∨ b.IsSubnormal → 0 < a.exp ∨ 0 < b.exp) := by
  rw [flushStable_not fun x y _ _ => cvmDNe_eq_not x y]
  exact cvmDEq_flush_iff a b

theorem cvmDGt_flush_iff (a b : CvmF64) : FlushStable cvmDGt a b ↔ (a.exp = 0 → b.exp = 0 →
    ¬(a.IsSubnormal ∧ a.sign = false) ∧ ¬(b.IsSubnormal ∧ b.sign = true)) := by
  have hswap : FlushStable cvmDGt a b ↔ FlushStable cvmDLt b a := flushStable_swap
  rw [hswap, cvmDLt_flush_iff]
  exact ⟨fun h ha hb => (h hb ha).symm, fun h hb ha => (h ha hb).symm⟩

/-- Without a NaN, not above is below or equal. -/
theorem cvmDLe_eq_not {a b : CvmF64} (ha : cvmDIsnan a = false) (hb : cvmDIsnan b = false) : cvmDLe a b = !cvmDGt a b := by
  rw [cvmDLe, cvmDGt, cvmDLt_eq ha hb, cvmDLt_eq hb ha, cvmDEq_eq ha hb, Bool.eq_iff_iff, Bool.or_eq_true_iff, decide_eq_true_eq,
    decide_eq_true_eq, Bool.not_eq_true', decide_eq_false_iff_not]
  omega

theorem cvmDLe_flush_iff (a b : CvmF64) : FlushStable cvmDLe a b ↔ (a.exp = 0 → b.exp = 0 →
    ¬(a.IsSubnormal ∧ a.sign = false) ∧ ¬(b.IsSubnormal ∧ b.sign = true)) := by
  rcases Bool.eq_false_or_eq_true (cvmDIsnan a || cvmDIsnan b) with hnan | hnan
  · have hle : ∀ x y : CvmF64, (cvmDIsnan x || cvmDIsnan y) = true → cvmDLe x y = false := by
      intro x y h
      rw [cvmDLe, show cvmDLt x y = false from if_pos h, show cvmDEq x y = false from if_pos h]
      rfl
    have hgt : ∀ x y : CvmF64, (cvmDIsnan x || cvmDIsnan y) = true → cvmDGt x y = false := by
      intro x y h
      exact if_pos ((Bool.or_comm _ _).trans h)
    rw [← cvmDGt_flush_iff]
    exact iff_of_true (FlushStable.of_nan hle hnan) (FlushStable.of_nan hgt hnan)
  · obtain ⟨hna, hnb⟩ := Bool.or_eq_false_iff.mp hnan
    rw [← cvmDGt_flush_iff]
    exact flushStable_not fun x y hx hy => cvmDLe_eq_not (hx.trans hna) (hy.trans hnb)

theorem cvmDGe_flush_iff (a b : CvmF64) : FlushStable cvmDGe a b ↔ (a.exp = 0 → b.exp = 0 →
    ¬(a.IsSubnormal ∧ a.sign = true) ∧ ¬(b.IsSubnormal ∧ b.sign = false)) := by
  have hswap : FlushStable cvmDGe a b ↔ FlushStable cvmDLe b a := flushStable_swap
  rw [hswap, cvmDLe_flush_iff]
  exact ⟨fun h ha hb => (h hb ha).symm, fun h hb ha => (h ha hb).symm⟩

end comparisons

/-! ## Conversions -/

section conversions

variable (x : CvmF64)

/-- A conversion to single precision gives zero for a denormal. -/
theorem cvmDToF32_flush : cvmDToF32 x.flush = cvmDToF32 x := by
  by_cases h : x.IsSubnormal
  · have hexp : cvmDExp x = 0#32 := BitVec.eq_of_toNat_eq h.1
    have hexp' : cvmDExp x.flush = 0#32 := BitVec.eq_of_toNat_eq ((exp_flush x).trans h.1)
    rw [cvmDToF32, cvmDToF32, if_pos hexp, if_pos hexp', sign_flush]
  · rw [flush_of_not h]

/-- So does one to a signed integer. -/
theorem cvmDToI32_flush : cvmDToI32 x.flush = cvmDToI32 x := by
  by_cases h : x.IsSubnormal
  · have hexp : cvmDExp x = 0#32 := BitVec.eq_of_toNat_eq h.1
    have hexp' : cvmDExp x.flush = 0#32 := BitVec.eq_of_toNat_eq ((exp_flush x).trans h.1)
    rw [cvmDToI32, cvmDToI32, if_pos hexp, if_pos hexp', h.not_nan, h.flush_not_nan]
  · rw [flush_of_not h]

/-- And one to an unsigned integer. -/
theorem cvmDToU32_flush : cvmDToU32 x.flush = cvmDToU32 x := by
  by_cases h : x.IsSubnormal
  · have hexp : cvmDExp x = 0#32 := BitVec.eq_of_toNat_eq h.1
    have hexp' : cvmDExp x.flush = 0#32 := BitVec.eq_of_toNat_eq ((exp_flush x).trans h.1)
    rw [cvmDToU32, cvmDToU32, if_pos hexp, if_pos hexp', h.not_nan, h.flush_not_nan, sign_flush]
  · rw [flush_of_not h]

end conversions

end CronoVM
