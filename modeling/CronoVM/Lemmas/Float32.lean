import CronoVM.Lemmas.Float64Flush

/-!
# Single precision

The fields and the number of a word that holds a `float`, and the conversions between such words and doubles.
-/

namespace CronoVM

open CvmF64 Precision

/-! ## Words as numbers -/

/-- The sign bit. -/
def f32Sign (f : Word) : Bool := f >>> 31 != 0#32

/-- The biased exponent. -/
def f32Exp (f : Word) : Nat := ((f >>> 23) &&& 0xFF#32).toNat

/-- The mantissa without a leading one. -/
def f32Mant (f : Word) : Nat := (f &&& 0x7FFFFF#32).toNat

/-- The number of a word, if it is finite. -/
def f32Number (f : Word) : Option ℚ :=
  if f32Exp f = 255 then none
  else if f32Exp f = 0 then some (signed (f32Sign f) ((f32Mant f : ℚ) * 2 ^ (-149 : ℤ)))
  else some (signed (f32Sign f) (((2 ^ 23 + f32Mant f : ℕ) : ℚ) * 2 ^ ((f32Exp f : ℤ) - 150)))

/-- A normal number, a zero or an infinity. -/
def F32Plain (f : Word) : Prop := f32Exp f = 0 ∨ f32Exp f = 255 → f32Mant f = 0

def F32IsNormal (f : Word) : Prop := 0 < f32Exp f ∧ f32Exp f < 255

theorem toNat_f32Exp (f : Word) : f32Exp f = f.toNat / 2 ^ 23 % 2 ^ 8 := by
  rw [f32Exp, show (0xFF#32 : Word) = BitVec.ofNat 32 (2 ^ 8 - 1) from rfl, toNat_and_mask _ 8 (by decide), BitVec.toNat_ushiftRight,
    Nat.shiftRight_eq_div_pow]

theorem toNat_f32Mant (f : Word) : f32Mant f = f.toNat % 2 ^ 23 := by
  rw [f32Mant, show (0x7FFFFF#32 : Word) = BitVec.ofNat 32 (2 ^ 23 - 1) from rfl, toNat_and_mask _ 23 (by decide)]

theorem toNat_f32SignBit (f : Word) : (f >>> 31).toNat = f.toNat / 2 ^ 31 := by
  rw [BitVec.toNat_ushiftRight, Nat.shiftRight_eq_div_pow]

theorem f32SignBit_le (f : Word) : (f >>> 31).toNat ≤ 1 := by
  have hlt := f.isLt
  rw [toNat_f32SignBit]
  omega

/-- A word is its three fields. -/
theorem f32_fields (f : Word) : f.toNat = 2 ^ 31 * (f >>> 31).toNat + 2 ^ 23 * f32Exp f + f32Mant f := by
  have hlt := f.isLt
  rw [toNat_f32SignBit, toNat_f32Exp, toNat_f32Mant]
  omega

/-- Three fields give a word. -/
theorem toNat_f32Pack {s e m : Word} (hs : s.toNat ≤ 1) (he : e.toNat < 2 ^ 8) :
    ((s <<< 31) ||| (e <<< 23) ||| (m &&& 0x7FFFFF#32)).toNat = 2 ^ 31 * s.toNat + 2 ^ 23 * e.toNat + m.toNat % 2 ^ 23 := by
  have hm : (m &&& 0x7FFFFF#32).toNat = m.toNat % 2 ^ 23 := toNat_and_mask m 23 (by decide)
  have hlow : (e <<< 23 ||| (m &&& 0x7FFFFF#32)).toNat = 2 ^ 23 * e.toNat + m.toNat % 2 ^ 23 := by
    rw [toNat_shiftLeft_or (by omega) (by omega), hm]
  rw [BitVec.or_assoc, toNat_shiftLeft_or (by omega) (by omega), hlow]
  omega

section fields

variable {s e m w : Word} (hw : w.toNat = 2 ^ 31 * s.toNat + 2 ^ 23 * e.toNat + m.toNat % 2 ^ 23)
include hw

theorem f32Mant_of_fields : f32Mant w = m.toNat % 2 ^ 23 := by
  rw [toNat_f32Mant]
  omega

variable (he : e.toNat < 2 ^ 8)
include he

theorem f32Sign_of_fields : f32Sign w = (s != 0#32) := by
  have hbit : w >>> 31 = s := by
    apply BitVec.eq_of_toNat_eq
    rw [toNat_f32SignBit]
    omega
  rw [f32Sign, hbit]

theorem f32Exp_of_fields : f32Exp w = e.toNat := by
  rw [toNat_f32Exp]
  omega

end fields

/-! ## From doubles -/

/-- The infinity of a sign. -/
def f32Inf (s : Bool) : Word := if s then 0xFF800000#32 else 0x7F800000#32

/-- The zero of a sign. -/
def f32Zero (s : Bool) : Word := if s then 0x80000000#32 else 0#32

/-- The word of a number of 24 significant bits: an infinity from the biased exponent 255 on, a zero from 0 down. -/
def EncodesF32 (s : Bool) (x : ℚ) (w : Word) : Prop :=
  if 255 ≤ expo x + 127 then w = f32Inf s
  else if expo x + 127 ≤ 0 then w = f32Zero s
  else F32IsNormal w ∧ f32Number w = some x

theorem shiftLeft_sign_or_inf (x : CvmF64) : (cvmDSign x <<< 31) ||| 0x7F800000#32 = f32Inf x.sign := by
  unfold sign
  rcases x.sign_cases with h | h <;> rw [h] <;> rfl

theorem shiftLeft_sign (x : CvmF64) : cvmDSign x <<< 31 = f32Zero x.sign := by
  unfold sign
  rcases x.sign_cases with h | h <;> rw [h] <;> rfl

/-- The upper bits of a significand. -/
theorem toNat_m23 (x : CvmF64) : ((cvmDMhi x <<< 3) ||| (x.lo >>> 29)).toNat = x.sig / 2 ^ 29 - 2 ^ 23 := by
  have hfull := x.toNat_full
  have hmhi := x.toNat_mhi
  have hlo := x.lo.isLt
  have hlow : (x.lo >>> 29).toNat = x.lo.toNat / 2 ^ 29 := by rw [BitVec.toNat_ushiftRight, Nat.shiftRight_eq_div_pow]
  rw [toNat_shiftLeft_or (by omega) (by omega), hlow, sig]
  omega

/-- A number of 53 significant bits, cut to 24. -/
theorem truncate_val24 (x : CvmF64) : truncate 24 x.val = signed x.sign (((x.sig / 2 ^ 29 : ℕ) : ℚ) * 2 ^ ((x.exp : ℤ) - 1046)) := by
  have hlo := x.sig_lo
  have hhi := x.sig_hi
  have hscaled : (x.sig : ℚ) * 2 ^ ((x.exp : ℤ) - 1075) = (x.sig : ℚ) / (2 ^ 29 : ℕ) * 2 ^ ((x.exp : ℤ) - 1046) := by
    rw [show (x.exp : ℤ) - 1046 = 29 + (x.exp - 1075) by ring, zpow_add₀ two_ne_zero]
    norm_num
    ring
  rw [val, hscaled, truncate_quotient (by omega) (by omega) x.sign (by decide)]

theorem expo_truncate_val24 (x : CvmF64) : expo (truncate 24 x.val) = x.exp - 1023 := by
  have hlo := x.sig_lo
  have hhi := x.sig_hi
  have hlow : (2 : ℚ) ^ (24 - 1) ≤ (x.sig / 2 ^ 29 : ℕ) := by
    have hnat : 2 ^ 23 ≤ x.sig / 2 ^ 29 := by omega
    exact_mod_cast hnat
  have hhigh : ((x.sig / 2 ^ 29 : ℕ) : ℚ) < 2 ^ 24 := by
    have hnat : x.sig / 2 ^ 29 < 2 ^ 24 := by omega
    exact_mod_cast hnat
  rw [truncate_val24, expo_scaled hlow hhigh x.sign (by decide)]
  push_cast
  ring

/-- The significand of a normal double is cut to 24 bits. -/
theorem encodes_cvmDToF32 {x : CvmF64} (hx : x.IsNormal) : EncodesF32 x.sign (truncate 24 x.val) (cvmDToF32 x) := by
  have hzero : ¬cvmDExp x = 0#32 := beq_eq_false_iff_ne.mp hx.exp_ne_zero
  have hmax : ¬cvmDExp x = 0x7FF#32 := beq_eq_false_iff_ne.mp hx.exp_ne_max
  rw [EncodesF32, expo_truncate_val24]
  unfold cvmDToF32
  dsimp only
  rw [if_neg hzero, if_neg hmax, x.toInt_exp, shiftLeft_sign_or_inf]
  by_cases hbig : (x.exp : ℤ) - 1023 + 127 ≥ 0xFF
  · rw [if_pos hbig, if_pos hbig]
  · rw [if_neg hbig, if_neg hbig]
    by_cases hsmall : (x.exp : ℤ) - 1023 + 127 ≤ 0
    · rw [if_pos hsmall, if_pos hsmall, shiftLeft_sign]
    · rw [if_neg hsmall, if_neg hsmall]
      have hlo := x.sig_lo
      have hhi := x.sig_hi
      have he : (BitVec.ofInt 32 ((x.exp : ℤ) - 1023 + 127)).toNat = x.exp - 896 := by
        rw [BitVec.toNat_ofInt]
        omega
      have hlt : (BitVec.ofInt 32 ((x.exp : ℤ) - 1023 + 127)).toNat < 2 ^ 8 := by omega
      have hword := toNat_f32Pack (m := (cvmDMhi x <<< 3) ||| (x.lo >>> 29)) x.toNat_sign_le hlt
      have hexp := f32Exp_of_fields hword hlt
      have hsign := f32Sign_of_fields hword hlt
      have hmant := f32Mant_of_fields hword
      rw [he] at hexp
      rw [toNat_m23] at hmant
      constructor
      · rw [F32IsNormal, hexp]
        omega
      · have hsig : 2 ^ 23 + (x.sig / 2 ^ 29 - 2 ^ 23) % 2 ^ 23 = x.sig / 2 ^ 29 := by omega
        have hscale : ((x.exp - 896 : ℕ) : ℤ) - 150 = x.exp - 1046 := by omega
        rw [f32Number, hexp, hsign, hmant, hsig, hscale, if_neg (by omega), if_neg (by omega), truncate_val24]
        rfl

/-! ## To doubles -/

/-- What a conversion to a double keeps: the number and the sign; and back, the word. -/
structure ExactF32 (f : Word) (r : CvmF64) : Prop where
  number : r.number = f32Number f
  sign : r.sign = f32Sign f
  notNan : cvmDIsnan r = false
  back : cvmDToF32 r = f

theorem number_of_zero {r : CvmF64} (hexp : r.exp = 0) (hsig : r.sig = 2 ^ 52) : r.number = some 0 := by
  rw [CvmF64.number, hexp, if_neg (by decide), if_pos rfl, hsig, Nat.sub_self, Nat.cast_zero, zero_mul, signed_eq_zero.mpr rfl]

theorem f32Number_of_zero {f : Word} (hexp : f32Exp f = 0) (hmant : f32Mant f = 0) : f32Number f = some 0 := by
  rw [f32Number, hexp, if_neg (by decide), if_pos rfl, hmant, Nat.cast_zero, zero_mul, signed_eq_zero.mpr rfl]

theorem f32SignBit_cases (f : Word) : f >>> 31 = 0#32 ∨ f >>> 31 = 1#32 := by
  have hle := f32SignBit_le f
  have hnat : (f >>> 31).toNat = 0 ∨ (f >>> 31).toNat = 1 := by omega
  exact hnat.imp (fun h => BitVec.eq_of_toNat_eq h) (fun h => BitVec.eq_of_toNat_eq h)

/-- A zero goes to the zero of its sign. -/
theorem exactF32_zero {f : Word} (hexp : f32Exp f = 0) (hmant : f32Mant f = 0) : ExactF32 f (cvmDFromF32 f) := by
  have hfields := f32_fields f
  rw [hexp, hmant] at hfields
  rcases f32SignBit_cases f with h | h <;> rw [h] at hfields
  · obtain rfl : f = 0#32 := BitVec.eq_of_toNat_eq hfields
    exact ⟨(number_of_zero rfl rfl).trans (f32Number_of_zero hexp hmant).symm, rfl, rfl, rfl⟩
  · obtain rfl : f = 0x80000000#32 := BitVec.eq_of_toNat_eq hfields
    exact ⟨(number_of_zero rfl rfl).trans (f32Number_of_zero hexp hmant).symm, rfl, rfl, rfl⟩

/-- An infinity goes to the infinity of its sign. -/
theorem exactF32_inf {f : Word} (hexp : f32Exp f = 255) (hmant : f32Mant f = 0) : ExactF32 f (cvmDFromF32 f) := by
  have hfields := f32_fields f
  rw [hexp, hmant] at hfields
  rcases f32SignBit_cases f with h | h <;> rw [h] at hfields
  · obtain rfl : f = 0x7F800000#32 := BitVec.eq_of_toNat_eq hfields
    exact ⟨rfl, rfl, rfl, rfl⟩
  · obtain rfl : f = 0xFF800000#32 := BitVec.eq_of_toNat_eq hfields
    exact ⟨rfl, rfl, rfl, rfl⟩

/-- A normal number keeps its digits. -/
theorem exactF32_normal {f : Word} (hf : F32IsNormal f) : ExactF32 f (cvmDFromF32 f) := by
  obtain ⟨hpos, hmax⟩ := hf
  have hne0 : ¬(f >>> 23) &&& 0xFF#32 = 0#32 := fun h => Nat.ne_of_gt hpos (congrArg BitVec.toNat h)
  have hne255 : ¬(f >>> 23) &&& 0xFF#32 = 0xFF#32 := fun h => Nat.ne_of_lt hmax (congrArg BitVec.toNat h)
  have hdef : cvmDFromF32 f = cvmDPack (f >>> 31) (((f >>> 23) &&& 0xFF#32) - 127#32 + 1023#32) ((f &&& 0x7FFFFF#32) >>> 3)
      (((f &&& 0x7FFFFF#32) &&& 0x7#32) <<< 29) := by
    rw [cvmDFromF32, if_neg hne0, if_neg hne255]
  have hmant : f32Mant f < 2 ^ 23 := by
    rw [toNat_f32Mant]
    exact Nat.mod_lt _ (by decide)
  have hexp : (((f >>> 23) &&& 0xFF#32) - 127#32 + 1023#32).toNat = f32Exp f + 896 := by
    have hcast : ((f >>> 23) &&& 0xFF#32).toNat = f32Exp f := rfl
    rw [BitVec.toNat_add, BitVec.toNat_sub, hcast, BitVec.toNat_ofNat, BitVec.toNat_ofNat]
    omega
  have hmhi : ((f &&& 0x7FFFFF#32) >>> 3).toNat = f32Mant f / 2 ^ 3 := by
    rw [BitVec.toNat_ushiftRight, Nat.shiftRight_eq_div_pow, f32Mant]
  have hmlo : (((f &&& 0x7FFFFF#32) &&& 0x7#32) <<< 29).toNat = f32Mant f % 2 ^ 3 * 2 ^ 29 := by
    have hlow : ((f &&& 0x7FFFFF#32) &&& 0x7#32).toNat = f32Mant f % 2 ^ 3 := toNat_and_mask (f &&& 0x7FFFFF#32) 3 (by decide)
    rw [BitVec.toNat_shiftLeft, hlow, Nat.shiftLeft_eq, Nat.mod_eq_of_lt (by omega)]
  have hsign := f32SignBit_le f
  rw [hdef]
  generalize ((f >>> 23) &&& 0xFF#32) - 127#32 + 1023#32 = e at *
  generalize (f &&& 0x7FFFFF#32) >>> 3 = mhi at *
  generalize ((f &&& 0x7FFFFF#32) &&& 0x7#32) <<< 29 = mlo at *
  have hpack := toNat_pack_hi (e := e) (m := mhi) mlo hsign
  have hlo : (cvmDPack (f >>> 31) e mhi mlo).lo = mlo := rfl
  have hrexp : (cvmDPack (f >>> 31) e mhi mlo).exp = f32Exp f + 896 := by rw [exp_pack hsign (by omega), hexp]
  have hrsign : (cvmDPack (f >>> 31) e mhi mlo).sign = f32Sign f := sign_pack hsign
  have hrsig : (cvmDPack (f >>> 31) e mhi mlo).sig = (2 ^ 23 + f32Mant f) * 2 ^ 29 := by
    rw [sig, toNat_full, hpack, hlo]
    omega
  generalize cvmDPack (f >>> 31) e mhi mlo = r at *
  have hnormal : r.IsNormal := ⟨by omega, by omega⟩
  refine ⟨?_, hrsign, hnormal.not_nan, ?_⟩
  · have hscale : (2 : ℚ) ^ (((f32Exp f + 896 : ℕ) : ℤ) - 1075) * 2 ^ 29 = 2 ^ ((f32Exp f : ℤ) - 150) := by
      have hsum : (f32Exp f : ℤ) - 150 = (((f32Exp f + 896 : ℕ) : ℤ) - 1075) + (29 : ℕ) := by
        push_cast
        ring
      rw [hsum, zpow_add₀ two_ne_zero, zpow_natCast]
    rw [number_of_normal hnormal, f32Number, if_neg (Nat.ne_of_lt hmax), if_neg (Nat.ne_of_gt hpos), val, hrsign, hrsig, hrexp, ← hscale,
      Nat.cast_mul, Nat.cast_pow, Nat.cast_two, mul_assoc, mul_comm (2 ^ 29 : ℚ)]
  · have hzero : ¬cvmDExp r = 0#32 := beq_eq_false_iff_ne.mp hnormal.exp_ne_zero
    have hinf : ¬cvmDExp r = 0x7FF#32 := beq_eq_false_iff_ne.mp hnormal.exp_ne_max
    have hlow : (r.exp : ℤ) - 1023 + 127 = f32Exp f := by omega
    have he : (BitVec.ofInt 32 ((r.exp : ℤ) - 1023 + 127)).toNat = f32Exp f := by
      rw [hlow, BitVec.toNat_ofInt]
      omega
    have hword := toNat_f32Pack (m := (cvmDMhi r <<< 3) ||| (r.lo >>> 29)) r.toNat_sign_le (he.symm ▸ Nat.lt_succ_of_lt hmax)
    have hbits : (cvmDSign r).toNat = (f >>> 31).toNat := by
      unfold sign f32Sign at hrsign
      rcases r.sign_cases with h | h <;> rcases f32SignBit_cases f with h' | h' <;> rw [h, h'] at hrsign ⊢ <;>
        first | rfl | exact absurd hrsign (by decide)
    unfold cvmDToF32
    dsimp only
    rw [if_neg hzero, if_neg hinf, r.toInt_exp, if_neg (by omega), if_neg (by omega)]
    apply BitVec.eq_of_toNat_eq
    rw [hword, f32_fields f, toNat_m23, hbits, he, hrsig]
    omega

/-- A conversion to a double is exact. -/
theorem exactF32 {f : Word} (hf : F32Plain f) : ExactF32 f (cvmDFromF32 f) := by
  have hlt : f32Exp f < 256 := by
    rw [toNat_f32Exp]
    exact Nat.mod_lt _ (by decide)
  by_cases hzero : f32Exp f = 0
  · exact exactF32_zero hzero (hf (Or.inl hzero))
  · by_cases hinf : f32Exp f = 255
    · exact exactF32_inf hinf (hf (Or.inr hinf))
    · exact exactF32_normal ⟨by omega, by omega⟩

end CronoVM
