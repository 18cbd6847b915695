import CronoVM.Lemmas.Float64

/-!
# Aligned significands

What addition and subtraction make of two significands, one of them shifted right to the exponent of the other.
-/

namespace CronoVM

open CvmF64 Precision TwoWord

/-! ## The highest bit -/

/-- A halving looks at the upper half of the bits. -/
theorem and_upper_ne_zero {mask : Word} {k : Nat} {x : Word} (hk : k ≤ 16) (hhigh : mask >>> k = BitVec.ofNat 32 (2 ^ k - 1))
    (hlow : mask &&& BitVec.ofNat 32 (2 ^ k - 1) = 0#32) (hx : x.toNat < 2 ^ (2 * k)) : x &&& mask ≠ 0#32 ↔ 2 ^ k ≤ x.toNat := by
  have hpos := Nat.two_pow_pos k
  have hsq : 2 ^ (2 * k) = 2 ^ k * 2 ^ k := by rw [Nat.two_mul, Nat.pow_add]
  constructor
  · intro hne
    by_contra hlt
    refine hne ?_
    have hself : x &&& BitVec.ofNat 32 (2 ^ k - 1) = x := by
      apply BitVec.eq_of_toNat_eq
      rw [toNat_and_mask x k (by omega), Nat.mod_eq_of_lt (by omega)]
    rw [← hself, BitVec.and_assoc, BitVec.and_comm _ mask, hlow, BitVec.and_zero]
  · intro hle hzero
    have hshift : (x &&& mask) >>> k = x >>> k &&& BitVec.ofNat 32 (2 ^ k - 1) := by rw [BitVec.ushiftRight_and_distrib, hhigh]
    have hupper : (x >>> k).toNat = x.toNat / 2 ^ k := by rw [BitVec.toNat_ushiftRight, Nat.shiftRight_eq_div_pow]
    have hlt : x.toNat / 2 ^ k < 2 ^ k := by rwa [Nat.div_lt_iff_lt_mul hpos, ← hsq]
    have hone : 1 ≤ x.toNat / 2 ^ k := (Nat.le_div_iff_mul_le hpos).mpr (by omega)
    have hnat := congrArg BitVec.toNat hshift
    rw [hzero, BitVec.zero_ushiftRight, toNat_and_mask _ k (by omega), hupper, Nat.mod_eq_of_lt hlt, BitVec.toNat_zero] at hnat
    omega

/-- What is left of a word after some halvings: its bits from `n` on, fewer than `w`. -/
structure Halved (x : Word) (w : Nat) (p : Nat × Word) : Prop where
  eq : p.2.toNat = x.toNat / 2 ^ p.1
  pos : 0 < p.2.toNat
  lt : p.2.toNat < 2 ^ w

theorem Halved.halve {x : Word} {k : Nat} {p : Nat × Word} (h : Halved x (2 * k) p) (mask : Word) (hk : k ≤ 16)
    (hhigh : mask >>> k = BitVec.ofNat 32 (2 ^ k - 1)) (hlow : mask &&& BitVec.ofNat 32 (2 ^ k - 1) = 0#32) :
    Halved x k (topBitHalve mask k p) := by
  obtain ⟨heq, hpos, hlt⟩ := h
  have htest := and_upper_ne_zero hk hhigh hlow hlt
  unfold topBitHalve
  by_cases hset : p.2 &&& mask ≠ 0#32
  · have hle := htest.mp hset
    rw [if_pos hset]
    have hshift : (p.2 >>> k).toNat = p.2.toNat / 2 ^ k := by rw [BitVec.toNat_ushiftRight, Nat.shiftRight_eq_div_pow]
    refine ⟨?_, ?_, ?_⟩
    · rw [hshift, heq, Nat.div_div_eq_div_mul, ← Nat.pow_add]
    · rw [hshift]
      exact Nat.div_pos hle (Nat.two_pow_pos k)
    · rw [hshift, Nat.div_lt_iff_lt_mul (Nat.two_pow_pos k), ← Nat.pow_add, ← Nat.two_mul]
      exact hlt
  · rw [if_neg hset]
    exact ⟨heq, hpos, Nat.lt_of_not_le (mt htest.mpr hset)⟩

/-- The index of the highest bit. -/
theorem cvmTopBitU32_bounds {x : Word} (hx : x ≠ 0#32) : 2 ^ cvmTopBitU32 x ≤ x.toNat ∧ x.toNat < 2 ^ (cvmTopBitU32 x + 1) := by
  have hpos : 0 < x.toNat := Nat.pos_of_ne_zero fun h => hx (BitVec.eq_of_toNat_eq h)
  have h0 : Halved x 32 (0, x) := ⟨(Nat.div_one _).symm, hpos, x.isLt⟩
  have h1 : Halved x 16 _ := h0.halve 0xFFFF0000#32 (by decide) (by decide) (by decide)
  have h2 : Halved x 8 _ := h1.halve 0x0000FF00#32 (by decide) (by decide) (by decide)
  have h3 : Halved x 4 _ := h2.halve 0x000000F0#32 (by decide) (by decide) (by decide)
  have h4 : Halved x 2 _ := h3.halve 0x0000000C#32 (by decide) (by decide) (by decide)
  unfold cvmTopBitU32
  dsimp only
  generalize topBitHalve 0x0000000C#32 2 _ = p at h4 ⊢
  obtain ⟨heq, hpos', hlt⟩ := h4
  have htest : p.2 &&& 0x00000002#32 ≠ 0#32 ↔ 2 ^ 1 ≤ p.2.toNat := and_upper_ne_zero (by decide) (by decide) (by decide) hlt
  have hbounds : ∀ n : Nat, x.toNat / 2 ^ n = 1 → 2 ^ n ≤ x.toNat ∧ x.toNat < 2 ^ (n + 1) := by
    intro n hn
    have hsplit := Nat.div_add_mod x.toNat (2 ^ n)
    have hmod := Nat.mod_lt x.toNat (Nat.two_pow_pos n)
    rw [hn, Nat.mul_one] at hsplit
    rw [Nat.pow_succ]
    omega
  by_cases hset : p.2 &&& 0x00000002#32 ≠ 0#32
  · have hle := htest.mp hset
    rw [if_pos hset]
    refine hbounds _ ?_
    rw [Nat.pow_succ, ← Nat.div_div_eq_div_mul, ← heq]
    omega
  · have hgt := mt htest.mpr hset
    rw [if_neg hset]
    refine hbounds _ ?_
    rw [← heq]
    omega

/-! ## Aligned significands -/

/-- Alignment drops the bits that are shifted out. -/
theorem cvmDAlign_num (d hi lo : Word) :
    num (cvmDAlign d hi lo).mHi (cvmDAlign d hi lo).mLo = num hi lo / 2 ^ d.toNat := by
  have hshift : num hi lo / 2 ^ d.toNat = ((hi ++ lo) >>> d.toNat).toNat := by
    rw [BitVec.toNat_ushiftRight, Nat.shiftRight_eq_div_pow, ← num_eq_toNat]
  unfold cvmDAlign
  by_cases hge : d ≥ 32#32
  · have hle : 32 ≤ d.toNat := BitVec.le_def.mp hge
    have hsub : (d - 32#32).toNat = d.toNat - 32 := BitVec.toNat_sub_of_le hge
    rw [if_pos hge, hshift, ushiftRight_append_of_le (w := 32) hi lo hle, ← num_eq_toNat]
    dsimp only
    rw [BitVec.ushiftRight_eq', hsub]
    rfl
  · have hlt : d.toNat < 32 := Nat.lt_of_not_le fun h => hge (BitVec.le_def.mpr h)
    rw [if_neg hge]
    by_cases hpos : d > 0#32
    · have hsub : (32#32 - d).toNat = 32 - d.toNat := BitVec.toNat_sub_of_le (BitVec.le_def.mpr (Nat.le_of_lt hlt))
      rw [if_pos hpos, hshift, ushiftRight_append_of_lt (w := 32) hi lo hlt, ← num_eq_toNat]
      dsimp only
      rw [BitVec.ushiftRight_eq', BitVec.ushiftRight_eq', BitVec.shiftLeft_eq', hsub]
    · have hzero : d.toNat = 0 := Nat.eq_zero_of_not_pos fun h => hpos (BitVec.lt_def.mpr h)
      rw [if_neg hpos, hzero, Nat.pow_zero, Nat.div_one]

/-- A sum with its carry. -/
theorem num_add {ah al bh bl : Word} (h : num ah al + num bh bl < 2 ^ 64) :
    num (ah + bh + (if al + bl < al then 1#32 else 0#32)) (al + bl) = num ah al + num bh bl := by
  have hadd : (ah ++ al) + (bh ++ bl) = (ah + bh + (if al + bl < al then 1#32 else 0#32)) ++ (al + bl) := add_append ah al bh bl
  rw [num_eq_toNat, ← hadd, BitVec.toNat_add, ← num_eq_toNat, ← num_eq_toNat]
  exact Nat.mod_eq_of_lt h

/-- A shift left by any number of bits that loses none. -/
theorem cvmDRenormalise_num {hi lo : Word} {n : Nat} (h : num hi lo * 2 ^ n < 2 ^ 64) :
    num (cvmDRenormalise n hi lo).mHi (cvmDRenormalise n hi lo).mLo = num hi lo * 2 ^ n := by
  unfold cvmDRenormalise
  by_cases hge : n ≥ 32
  · have hshift : num hi lo * 2 ^ n = ((hi ++ lo) <<< n).toNat := by
      rw [BitVec.toNat_shiftLeft, ← num_eq_toNat, Nat.shiftLeft_eq]
      exact (Nat.mod_eq_of_lt h).symm
    rw [if_pos hge, hshift, shiftLeft_append_of_le (w := 32) hi lo hge, ← num_eq_toNat]
    rfl
  · rw [if_neg hge]
    exact num_shiftLeft (Nat.lt_of_not_le hge) h

/-- The index of the highest bit of two words. -/
theorem leading_bounds {hi lo : Word} (h : num hi lo ≠ 0) :
    2 ^ (if hi ≠ 0#32 then 32 + cvmTopBitU32 hi else cvmTopBitU32 lo) ≤ num hi lo ∧
      num hi lo < 2 ^ ((if hi ≠ 0#32 then 32 + cvmTopBitU32 hi else cvmTopBitU32 lo) + 1) := by
  have hlo := lo.isLt
  by_cases hhi : hi ≠ 0#32
  · obtain ⟨hle, hlt⟩ := cvmTopBitU32_bounds hhi
    rw [if_pos hhi, Nat.add_assoc, Nat.pow_add, Nat.pow_add 2 32]
    unfold num
    omega
  · have hzero : hi = 0#32 := not_not.mp hhi
    subst hzero
    have hnum : num 0#32 lo = lo.toNat := by
      unfold num
      rw [BitVec.toNat_zero]
      omega
    rw [if_neg hhi, hnum]
    refine cvmTopBitU32_bounds fun hlo0 => h ?_
    rw [hnum, hlo0]
    rfl

section aligned

variable {s e ah al bh bl : Word} (hs : s.toNat ≤ 1) (hpos : 0 < e.toNat) (hmax : e.toNat < 2047)
include hs hpos hmax

/-- A difference of aligned significands, shifted left until it has 53 bits. -/
theorem cvmDSubAligned_val {n : Nat} (hle : num bh bl ≤ num ah al) (ha : num ah al < 2 ^ 53) (hn : num ah al - num bh bl = n) (hne : n ≠ 0) :
    ∃ k : Nat, 2 ^ 52 ≤ n * 2 ^ k ∧ n * 2 ^ k < 2 ^ 53 ∧
      (k < e.toNat → (cvmDSubAligned s e ah al bh bl).IsNormal ∧
        (cvmDSubAligned s e ah al bh bl).val = signed (s != 0#32) ((n : ℚ) * 2 ^ ((e.toNat : ℤ) - 1075))) := by
  have hnum := num_sub hle
  rw [hn] at hnum
  unfold cvmDSubAligned
  dsimp only
  generalize ah - bh - (if al < bl then 1#32 else 0#32) = rHi, al - bl = rLo at *
  have hzero : ¬(rLo = 0#32 ∧ rHi = 0#32) := by
    rintro ⟨rfl, rfl⟩
    exact hne (hnum.symm.trans rfl)
  have hrest : num rHi rLo ≠ 0 := by omega
  obtain ⟨hlow, hhigh⟩ := leading_bounds hrest
  rw [if_neg hzero]
  rw [hnum] at hlow hhigh
  generalize (if rHi ≠ 0#32 then 32 + cvmTopBitU32 rHi else cvmTopBitU32 rLo) = leading at *
  have hlead : leading < 53 := (Nat.pow_lt_pow_iff_right Nat.one_lt_two).mp (Nat.lt_of_le_of_lt hlow (by omega))
  have hpow : ∀ m : Nat, 2 ^ leading * 2 ^ (52 - leading + m) = 2 ^ (52 + m) := by
    intro m
    rw [← Nat.pow_add]
    congr 1
    omega
  have hlow' : 2 ^ 52 ≤ n * 2 ^ (52 - leading) := by
    rw [← hpow 0]
    exact Nat.mul_le_mul_right _ hlow
  have hhigh' : n * 2 ^ (52 - leading) < 2 ^ 53 := by
    rw [← hpow 1, Nat.pow_succ 2 (52 - leading), Nat.mul_comm (2 ^ (52 - leading)), ← Nat.mul_assoc, ← Nat.pow_succ]
    exact Nat.mul_lt_mul_of_pos_right hhigh (Nat.two_pow_pos _)
  refine ⟨52 - leading, hlow', hhigh', fun hk => ?_⟩
  by_cases hshl : (52 : Int) - leading > 0
  · rw [if_pos hshl]
    have hexp : e.toInt = e.toNat := BitVec.toInt_eq_toNat_of_lt (by omega)
    have hshift : ((52 : Int) - leading).toNat = 52 - leading := by omega
    have hexp' : (BitVec.ofInt 32 (e.toInt - (52 - leading))).toNat = e.toNat - (52 - leading) := by
      rw [BitVec.toNat_ofInt]
      omega
    have hroom : num rHi rLo * 2 ^ (52 - leading) < 2 ^ 64 := by
      rw [hnum]
      omega
    have hnum' := cvmDRenormalise_num hroom
    rw [if_neg (by omega), hshift]
    rw [hnum] at hnum'
    obtain ⟨hnormal, hval⟩ := val_pack (e := BitVec.ofInt 32 (e.toInt - (52 - leading))) hs hnum' hlow' hhigh' (by omega) (by omega)
    refine ⟨hnormal, hval.trans ?_⟩
    have hscale : (2 : ℚ) ^ ((e.toNat : ℤ) - 1075) = 2 ^ (52 - leading) * 2 ^ (((e.toNat - (52 - leading) : ℕ) : ℤ) - 1075) := by
      rw [← zpow_natCast, ← zpow_add₀ two_ne_zero]
      congr 1
      omega
    rw [hexp', hscale, Nat.cast_mul, Nat.cast_pow, Nat.cast_two, mul_assoc]
  · have hzero : 52 - leading = 0 := by omega
    rw [if_neg hshl]
    rw [hzero, Nat.pow_zero, Nat.mul_one] at hlow' hhigh'
    exact val_pack hs hnum hlow' hhigh' hpos hmax

/-- The sum of two aligned significands, shifted right if it has 54 bits. -/
theorem cvmDAddAligned_val {n : Nat} (ha : 2 ^ 52 ≤ num ah al) (hn : num ah al + num bh bl = n) (hlt : n < 2 ^ 54) :
    ∃ k : Nat, 2 ^ 52 ≤ n / 2 ^ k ∧ n / 2 ^ k < 2 ^ 53 ∧ k ≤ 1 ∧
      (e.toNat + k < 2047 → (cvmDAddAligned s e ah al bh bl).IsNormal ∧
        (cvmDAddAligned s e ah al bh bl).val = signed (s != 0#32) (((n / 2 ^ k : ℕ) : ℚ) * 2 ^ ((e.toNat : ℤ) + k - 1075))) := by
  have hroom : num ah al + num bh bl < 2 ^ 64 := by omega
  have hnum := num_add hroom
  rw [hn] at hnum
  unfold cvmDAddAligned
  dsimp only
  generalize al + bl = rLo at *
  generalize ah + bh + (if rLo < al then 1#32 else 0#32) = rHi at *
  have hbit := and_bit53 rHi rLo
  rw [hnum] at hbit
  by_cases hover : rHi &&& 0x200000#32 ≠ 0#32
  · have hset := hbit.mp hover
    have hhalf := num_half rHi rLo
    have hexp : (e + 1#32).toNat = e.toNat + 1 := toNat_add_of_lt (by change e.toNat + 1 < 2 ^ 32; omega)
    rw [hnum] at hhalf
    rw [if_pos hover]
    refine ⟨1, by omega, by omega, Nat.le_refl 1, fun hk => ?_⟩
    have hsmall : ¬e + 1#32 ≥ 0x7FF#32 := fun h => absurd (BitVec.le_def.mp h) (by rw [hexp]; exact Nat.not_le.mpr hk)
    rw [if_neg hsmall]
    obtain ⟨hnormal, hval⟩ := val_pack (e := e + 1#32) hs hhalf (by omega) (by omega) (by omega) (by omega)
    rw [hexp, Nat.cast_add] at hval
    exact ⟨hnormal, hval⟩
  · have hclear := mt hbit.mpr hover
    rw [if_neg hover]
    refine ⟨0, by omega, by omega, Nat.zero_le 1, fun _ => ?_⟩
    obtain ⟨hnormal, hval⟩ := val_pack hs hnum (by omega) (by omega) hpos hmax
    rw [Nat.pow_zero, Nat.div_one, Nat.cast_zero, add_zero]
    exact ⟨hnormal, hval⟩

end aligned

end CronoVM
