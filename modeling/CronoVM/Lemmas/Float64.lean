import Mathlib.Data.Nat.Bitwise
import Mathlib.Data.Rat.Floor
import CronoVM.Lib.Precision
import CronoVM.Runtime.Float64

/-!
# Doubles as numbers

The number a normal double stands for, and what the two words of a result give back when they are packed.
-/

namespace CronoVM

open Precision TwoWord

/-! ## Words -/

/-- The low bits of a word. -/
theorem toNat_and_mask (x : Word) (k : Nat) (hk : k ≤ 32) : (x &&& BitVec.ofNat 32 (2 ^ k - 1)).toNat = x.toNat % 2 ^ k := by
  have hpow : 2 ^ k ≤ 2 ^ 32 := Nat.pow_le_pow_right Nat.two_pos hk
  have hpos := Nat.two_pow_pos k
  rw [BitVec.toNat_and, BitVec.toNat_ofNat, Nat.mod_eq_of_lt (by omega), Nat.and_two_pow_sub_one_eq_mod]

/-- A shifted word beside one that fits into the bits below. -/
theorem toNat_shiftLeft_or {x y : Word} {k : Nat} (hx : 2 ^ k * x.toNat < 2 ^ 32) (hy : y.toNat < 2 ^ k) :
    (x <<< k ||| y).toNat = 2 ^ k * x.toNat + y.toNat := by
  have hshift : x.toNat <<< k = 2 ^ k * x.toNat := by rw [Nat.shiftLeft_eq, Nat.mul_comm]
  rw [BitVec.toNat_or, BitVec.toNat_shiftLeft, hshift, Nat.mod_eq_of_lt hx, ← hshift, ← Nat.shiftLeft_add_eq_or_of_lt hy]

/-- Small words are added without a carry. -/
theorem toNat_add_of_lt {x y : Word} (h : x.toNat + y.toNat < 2 ^ 32) : (x + y).toNat = x.toNat + y.toNat := by
  rw [BitVec.toNat_add, Nat.mod_eq_of_lt h]

/-! ## Two words -/

/-- The number of two words. -/
def num (hi lo : Word) : Nat := 2 ^ 32 * hi.toNat + lo.toNat

/-- Two words as one number. -/
theorem num_eq_toNat (hi lo : Word) : num hi lo = (hi ++ lo).toNat := (toNat_append hi lo).symm

/-- Two words are compared from the high one on. -/
theorem decide_num_lt (ah al bh bl : Word) :
    (if ah ≠ bh then decide (ah < bh) else decide (al < bl)) = decide (num ah al < num bh bl) := by
  have hal := al.isLt
  have hbl := bl.isLt
  by_cases heq : ah = bh
  · rw [if_neg (not_not.mpr heq), heq, decide_eq_decide, BitVec.lt_def]
    unfold num
    omega
  · have hne : ah.toNat ≠ bh.toNat := fun h => heq (BitVec.eq_of_toNat_eq h)
    rw [if_pos heq, decide_eq_decide, BitVec.lt_def]
    unfold num
    omega

/-- Two words are compared by the upper one, then by the lower one. -/
theorem decide_num_le (ah al bh bl : Word) :
    (if ah ≠ bh then decide (ah > bh) else decide (al ≥ bl)) = decide (num bh bl ≤ num ah al) := by
  have hal := al.isLt
  have hbl := bl.isLt
  by_cases heq : ah = bh
  · rw [if_neg (not_not.mpr heq), heq, decide_eq_decide, ge_iff_le, BitVec.le_def]
    unfold num
    omega
  · have hne : ah.toNat ≠ bh.toNat := fun h => heq (BitVec.eq_of_toNat_eq h)
    rw [if_pos heq, decide_eq_decide, gt_iff_lt, BitVec.lt_def]
    unfold num
    omega

/-- A shift left that loses no bit. -/
theorem num_shiftLeft {hi lo : Word} {n : Nat} (hn : n < 32) (h : num hi lo * 2 ^ n < 2 ^ 64) :
    num ((hi <<< n) ||| (lo >>> (32 - n))) (lo <<< n) = num hi lo * 2 ^ n := by
  rw [num_eq_toNat, ← shiftLeft_append_of_lt hi lo hn, BitVec.toNat_shiftLeft, Nat.shiftLeft_eq, ← num_eq_toNat]
  exact Nat.mod_eq_of_lt h

/-- Doubling moves the top bit of the lower word up. -/
theorem num_double {hi lo : Word} (h : num hi lo < 2 ^ 63) : num ((hi <<< 1) ||| (lo >>> 31)) (lo <<< 1) = 2 * num hi lo := by
  rw [Nat.mul_comm]
  exact num_shiftLeft (by decide) (by omega)

/-- A difference with its borrow. -/
theorem num_sub {ah al bh bl : Word} (h : num bh bl ≤ num ah al) :
    num (ah - bh - (if al < bl then 1#32 else 0#32)) (al - bl) = num ah al - num bh bl := by
  have hsub : (ah ++ al) - (bh ++ bl) = (ah - bh - (if al < bl then 1#32 else 0#32)) ++ (al - bl) := sub_append ah al bh bl
  rw [num_eq_toNat, ← hsub, num_eq_toNat, num_eq_toNat] at *
  exact BitVec.toNat_sub_of_le (BitVec.le_def.mpr h)

/-- A shift right by one. -/
theorem num_half (hi lo : Word) : num (hi >>> 1) ((lo >>> 1) ||| (hi <<< 31)) = num hi lo / 2 := by
  rw [num_eq_toNat, ← ushiftRight_append_of_lt (w := 32) hi lo (by decide : 1 < 32), BitVec.toNat_ushiftRight, Nat.shiftRight_eq_div_pow,
    ← num_eq_toNat]

/-- The bit above a significand. -/
theorem and_bit53 (hi lo : Word) : (hi &&& 0x200000#32 ≠ 0#32) ↔ num hi lo / 2 ^ 53 % 2 = 1 := by
  have hlo := lo.isLt
  have hand : (hi &&& 0x200000#32).toNat = (hi.toNat.testBit 21).toNat * 2 ^ 21 := by
    rw [BitVec.toNat_and]
    exact Nat.and_two_pow hi.toNat 21
  have hzero : hi &&& 0x200000#32 = 0#32 ↔ (hi &&& 0x200000#32).toNat = 0 := ⟨congrArg BitVec.toNat, fun h => BitVec.eq_of_toNat_eq h⟩
  have hbit : num hi lo / 2 ^ 53 % 2 = 1 ↔ hi.toNat.testBit 21 = true := by
    rw [Nat.testBit_eq_decide_div_mod_eq, decide_eq_true_eq, num]
    omega
  rw [hbit, Ne, hzero, hand]
  cases hi.toNat.testBit 21 with
  | false => exact iff_of_false (fun h => h rfl) Bool.false_ne_true
  | true => exact iff_of_true (by decide) rfl

/-! ## Bit fields -/

namespace CvmF64

/-- The sign is the top bit. -/
theorem toNat_sign (x : CvmF64) : (cvmDSign x).toNat = x.hi.toNat / 2 ^ 31 % 2 ^ 1 := by
  rw [cvmDSign, show (1#32 : Word) = BitVec.ofNat 32 (2 ^ 1 - 1) from rfl, toNat_and_mask _ 1 (by decide), BitVec.toNat_ushiftRight,
    Nat.shiftRight_eq_div_pow]

/-- The exponent is the next eleven bits. -/
theorem toNat_exp (x : CvmF64) : (cvmDExp x).toNat = x.hi.toNat / 2 ^ 20 % 2 ^ 11 := by
  rw [cvmDExp, show (0x7FF#32 : Word) = BitVec.ofNat 32 (2 ^ 11 - 1) from rfl, toNat_and_mask _ 11 (by decide), BitVec.toNat_ushiftRight,
    Nat.shiftRight_eq_div_pow]

/-- The upper part of the significand is the rest of the word. -/
theorem toNat_mhi (x : CvmF64) : (cvmDMhi x).toNat = x.hi.toNat % 2 ^ 20 := by
  rw [cvmDMhi, show (0x000FFFFF#32 : Word) = BitVec.ofNat 32 (2 ^ 20 - 1) from rfl, toNat_and_mask _ 20 (by decide)]

/-- The high word of a significand, with its leading one. -/
def full (x : CvmF64) : Word := cvmDMhi x ||| 0x100000#32

/-- With the hidden bit. -/
theorem toNat_full (x : CvmF64) : x.full.toNat = 2 ^ 20 + x.hi.toNat % 2 ^ 20 := by
  have hlt : (cvmDMhi x).toNat < 2 ^ 20 := by
    rw [toNat_mhi]
    exact Nat.mod_lt _ (by decide)
  have hor : x.full = (1#32 : Word) <<< 20 ||| cvmDMhi x := BitVec.or_comm _ _
  rw [hor, toNat_shiftLeft_or (by decide) hlt, toNat_mhi]
  rfl

/-- The significand, an integer of 53 bits. -/
def sig (x : CvmF64) : Nat := 2 ^ 32 * x.full.toNat + x.lo.toNat

/-- A significand has its top bit set. -/
theorem sig_lo (x : CvmF64) : 2 ^ 52 ≤ x.sig := by
  have hfull := x.toNat_full
  unfold sig
  omega

/-- It has 53 bits. -/
theorem sig_hi (x : CvmF64) : x.sig < 2 ^ 53 := by
  have hfull := x.toNat_full
  have hlo := x.lo.isLt
  unfold sig
  omega

/-- The biased exponent. -/
def exp (x : CvmF64) : Nat := (cvmDExp x).toNat

theorem exp_lt (x : CvmF64) : x.exp < 2 ^ 11 := by
  rw [exp, toNat_exp]
  exact Nat.mod_lt _ (by decide)

theorem toInt_exp (x : CvmF64) : (cvmDExp x).toInt = x.exp := by
  have hlt : (cvmDExp x).toNat < 2 ^ 11 := x.exp_lt
  rw [BitVec.toInt_eq_toNat_of_lt (by omega), exp]

/-- The sign, set for negative numbers. -/
def sign (x : CvmF64) : Bool := cvmDSign x != 0#32

/-- Normal: neither a zero or a subnormal nor an infinity or a NaN. -/
def IsNormal (x : CvmF64) : Prop := 0 < x.exp ∧ x.exp < 2047

instance (x : CvmF64) : Decidable x.IsNormal := inferInstanceAs (Decidable (_ ∧ _))

namespace IsNormal

variable {x : CvmF64} (hx : x.IsNormal)
include hx

theorem exp_ne_zero : (cvmDExp x == 0#32) = false := by
  rw [beq_eq_false_iff_ne]
  intro h
  exact (Nat.ne_of_gt hx.1) (congrArg BitVec.toNat h)

theorem exp_ne_max : (cvmDExp x == 0x7FF#32) = false := by
  rw [beq_eq_false_iff_ne]
  intro h
  exact (Nat.ne_of_lt hx.2) (congrArg BitVec.toNat h)

theorem not_nan : cvmDIsnan x = false := by
  rw [cvmDIsnan, hx.exp_ne_max, Bool.false_and]

theorem not_inf : cvmDIsinf x = false := by
  rw [cvmDIsinf, hx.exp_ne_max, Bool.false_and, Bool.false_and]

theorem not_zero : cvmDIszero x = false := by
  rw [cvmDIszero, hx.exp_ne_zero, Bool.false_and, Bool.false_and]

end IsNormal

/-- The number a normal double stands for. -/
def val (x : CvmF64) : ℚ := signed x.sign ((x.sig : ℚ) * 2 ^ ((x.exp : ℤ) - 1075))

theorem sig_pos (x : CvmF64) : (0 : ℚ) < x.sig := by exact_mod_cast Nat.lt_of_lt_of_le (Nat.two_pow_pos 52) x.sig_lo

/-- The value of a normal number is not zero. -/
theorem val_ne_zero (x : CvmF64) : x.val ≠ 0 := by
  rw [val, Ne, signed_eq_zero]
  exact (mul_pos x.sig_pos (zpow_pos two_pos _)).ne'

theorem toNat_sign_le (x : CvmF64) : (cvmDSign x).toNat ≤ 1 := by
  rw [toNat_sign]
  omega

/-- The sign of a product or a quotient. -/
theorem toNat_sign_xor (x y : CvmF64) : (cvmDSign x ^^^ cvmDSign y).toNat ≤ 1 := by
  rw [BitVec.toNat_xor]
  exact Nat.lt_succ_iff.mp (Nat.xor_lt_two_pow (n := 1) (Nat.lt_succ_iff.mpr x.toNat_sign_le) (Nat.lt_succ_iff.mpr y.toNat_sign_le))

/-- A sign is one of two words. -/
theorem sign_cases (x : CvmF64) : cvmDSign x = 0#32 ∨ cvmDSign x = 1#32 := by
  have hle := x.toNat_sign_le
  have hnat : (cvmDSign x).toNat = 0 ∨ (cvmDSign x).toNat = 1 := by omega
  exact hnat.imp (fun h => BitVec.eq_of_toNat_eq h) (fun h => BitVec.eq_of_toNat_eq h)

/-- The sign of a product. -/
theorem sign_xor (x y : CvmF64) : (cvmDSign x ^^^ cvmDSign y != 0#32) = (x.sign ^^ y.sign) := by
  unfold sign
  rcases x.sign_cases with hx | hx <;> rcases y.sign_cases with hy | hy <;> rw [hx, hy] <;> rfl

/-- A high word is its three fields. -/
theorem toNat_hi (x : CvmF64) : x.hi.toNat = 2 ^ 31 * (cvmDSign x).toNat + 2 ^ 20 * x.exp + (cvmDMhi x).toNat := by
  have hlt := x.hi.isLt
  rw [toNat_sign, exp, toNat_exp, toNat_mhi]
  omega

end CvmF64

open CvmF64

/-! ## Packing -/

/-- Packed fields, as a number. -/
theorem toNat_pack_hi {s e m : Word} (lo : Word) (hs : s.toNat ≤ 1) :
    (cvmDPack s e m lo).hi.toNat = 2 ^ 31 * s.toNat + 2 ^ 20 * (e.toNat % 2 ^ 11) + m.toNat % 2 ^ 20 := by
  have he : (e &&& 0x7FF#32).toNat = e.toNat % 2 ^ 11 := toNat_and_mask e 11 (by decide)
  have hm : (m &&& 0xFFFFF#32).toNat = m.toNat % 2 ^ 20 := toNat_and_mask m 20 (by decide)
  have hlow : ((e &&& 0x7FF#32) <<< 20 ||| (m &&& 0xFFFFF#32)).toNat = 2 ^ 20 * (e.toNat % 2 ^ 11) + m.toNat % 2 ^ 20 := by
    rw [toNat_shiftLeft_or (by omega) (by omega), he, hm]
  have hhi : (cvmDPack s e m lo).hi = s <<< 31 ||| ((e &&& 0x7FF#32) <<< 20 ||| (m &&& 0xFFFFF#32)) := BitVec.or_assoc _ _ _
  rw [hhi, toNat_shiftLeft_or (by omega) (by omega), hlow]
  omega

section pack

variable {s e hi lo : Word} (hs : s.toNat ≤ 1)
include hs

/-- What is packed has the sign, -/
theorem sign_pack : (cvmDPack s e hi lo).sign = (s != 0#32) := by
  have hsign : cvmDSign (cvmDPack s e hi lo) = s := by
    apply BitVec.eq_of_toNat_eq
    rw [toNat_sign, toNat_pack_hi lo hs]
    omega
  rw [sign, hsign]

/-- the exponent -/
theorem exp_pack (he : e.toNat < 2047) : (cvmDPack s e hi lo).exp = e.toNat := by
  rw [exp, toNat_exp, toNat_pack_hi lo hs]
  omega

/-- and the significand. -/
theorem sig_pack : (cvmDPack s e (hi &&& 0xFFFFF#32) lo).sig = 2 ^ 52 + 2 ^ 32 * (hi.toNat % 2 ^ 20) + lo.toNat := by
  have hm : (hi &&& 0xFFFFF#32).toNat = hi.toNat % 2 ^ 20 := toNat_and_mask hi 20 (by decide)
  have hlo : (cvmDPack s e (hi &&& 0xFFFFF#32) lo).lo = lo := rfl
  rw [sig, toNat_full, toNat_pack_hi lo hs, hm, hlo]
  omega

/-- A significand of 53 bits and an exponent in range are packed to their number. -/
theorem val_pack {m : Nat} (hm : 2 ^ 32 * hi.toNat + lo.toNat = m) (hlo : 2 ^ 52 ≤ m) (hhi : m < 2 ^ 53) (hpos : 0 < e.toNat)
    (hmax : e.toNat < 2047) : (cvmDPack s e (hi &&& 0xFFFFF#32) lo).IsNormal ∧
      (cvmDPack s e (hi &&& 0xFFFFF#32) lo).val = signed (s != 0#32) ((m : ℚ) * 2 ^ ((e.toNat : ℤ) - 1075)) := by
  have hsig : (cvmDPack s e (hi &&& 0xFFFFF#32) lo).sig = m := by
    have hword := lo.isLt
    rw [sig_pack hs]
    omega
  constructor
  · rw [IsNormal, exp_pack hs hmax]
    exact ⟨hpos, hmax⟩
  · rw [val, sign_pack hs, hsig, exp_pack hs hmax]

end pack

/-! ## Results -/

/-- The double of a number of 53 significant bits: an infinity from the biased exponent 2047 on, a zero from 0 down. -/
def Encodes (s : Bool) (x : ℚ) (r : CvmF64) : Prop :=
  if 2047 ≤ expo x + 1023 then r = if s then cvmDNegInf else cvmDInf
  else if expo x + 1023 ≤ 0 then r = if s then cvmDNegZero else cvmDZero
  else r.IsNormal ∧ r.val = x

/-- The exponent of a significand of 53 bits. -/
theorem expo_sig {m : Nat} (hlo : 2 ^ 52 ≤ m) (hhi : m < 2 ^ 53) (s : Bool) (e : ℤ) :
    expo (signed s ((m : ℚ) * 2 ^ (e - 1075))) = e - 1023 := by
  have hlo' : (2 : ℚ) ^ (53 - 1) ≤ m := by exact_mod_cast hlo
  have hhi' : (m : ℚ) < 2 ^ 53 := by exact_mod_cast hhi
  rw [expo_scaled hlo' hhi' s (by decide)]
  push_cast
  ring

/-- The exponent of the value. -/
theorem expo_val (x : CvmF64) : expo x.val = x.exp - 1023 := expo_sig x.sig_lo x.sig_hi x.sign x.exp

/-- The sign of a number is that of its double. -/
theorem decide_val_lt_zero (x : CvmF64) : decide (x.val < 0) = x.sign :=
  decide_scaled (p := 53) (by exact_mod_cast x.sig_lo) x.sign

/-- Numbers of 53 significant bits are not cut. -/
theorem truncate_sig {m : Nat} (hlo : 2 ^ 52 ≤ m) (hhi : m < 2 ^ 53) (s : Bool) (e : ℤ) :
    truncate 53 (signed s ((m : ℚ) * 2 ^ e)) = signed s ((m : ℚ) * 2 ^ e) := by
  have hlo' : (2 : ℚ) ^ (53 - 1) ≤ m := by exact_mod_cast hlo
  have hhi' : (m : ℚ) < 2 ^ 53 := by exact_mod_cast hhi
  rw [truncate_scaled hlo' hhi' s (by decide), Int.floor_natCast, Int.cast_natCast]

/-- A value has no bit to cut. -/
theorem truncate_val (x : CvmF64) : truncate 53 x.val = x.val := truncate_sig x.sig_lo x.sig_hi x.sign _

/-- The exponent of a normal double bounds its magnitude. -/
theorem CvmF64.zpow_le_abs_val (x : CvmF64) : (2 : ℚ) ^ ((x.exp : ℤ) - 1023) ≤ |x.val| := by
  have hlo : (2 : ℚ) ^ 52 ≤ x.sig := by exact_mod_cast x.sig_lo
  have hpow : (2 : ℚ) ^ ((x.exp : ℤ) - 1023) = 2 ^ 52 * 2 ^ ((x.exp : ℤ) - 1075) := by
    rw [← zpow_natCast, ← zpow_add₀ two_ne_zero]
    congr 1
    push_cast
    ring
  have hscale : (0 : ℚ) < 2 ^ ((x.exp : ℤ) - 1075) := zpow_pos two_pos _
  rw [val, abs_signed, abs_of_pos (mul_pos x.sig_pos hscale), hpow]
  exact mul_le_mul_of_nonneg_right hlo hscale.le

/-- A bound on the value bounds the exponent. -/
theorem exp_lt_of_abs_val_lt {x : CvmF64} {n : ℤ} (h : |x.val| < 2 ^ n) : (x.exp : ℤ) < n + 1023 := by
  have hlt := (zpow_lt_zpow_iff_right₀ one_lt_two).mp (lt_of_le_of_lt x.zpow_le_abs_val h)
  omega

/-- A number in the range of the normal doubles is encoded by a normal double. -/
theorem Encodes.of_range {s : Bool} {x : ℚ} {r : CvmF64} (h : Encodes s x r) (hlow : -1022 ≤ expo x) (hhigh : expo x ≤ 1023) :
    r.IsNormal ∧ r.val = x := by
  rw [Encodes, if_neg (by omega), if_neg (by omega)] at h
  exact h

/-- The end of a multiplication and of a division: the range of the exponent, and packing. -/
theorem encodes_result {s hi lo : Word} (hs : s.toNat ≤ 1) {m : Nat} {e : ℤ} (hm : 2 ^ 32 * hi.toNat + lo.toNat = m) (hlo : 2 ^ 52 ≤ m)
    (hhi : m < 2 ^ 53) : Encodes (s != 0#32) (signed (s != 0#32) ((m : ℚ) * 2 ^ (e - 1075)))
      (if e ≥ 0x7FF then (if s ≠ 0#32 then cvmDNegInf else cvmDInf)
      else if e ≤ 0 then (if s ≠ 0#32 then cvmDNegZero else cvmDZero)
      else cvmDPack s (BitVec.ofInt 32 e) (hi &&& 0xFFFFF#32) lo) := by
  have hexpo := expo_sig hlo hhi (s != 0#32) e
  unfold Encodes
  rw [hexpo]
  by_cases hbig : e ≥ 0x7FF
  · rw [if_pos (by omega), if_pos hbig]
    simp only [bne_iff_ne]
  · rw [if_neg (by omega), if_neg hbig]
    by_cases hsmall : e ≤ 0
    · rw [if_pos (by omega), if_pos hsmall]
      simp only [bne_iff_ne]
    · rw [if_neg (by omega), if_neg hsmall]
      have he : (BitVec.ofInt 32 e).toNat = e.toNat := by
        rw [BitVec.toNat_ofInt]
        omega
      have hval := val_pack (e := BitVec.ofInt 32 e) hs hm hlo hhi (by omega) (by omega)
      rwa [he, Int.toNat_of_nonneg (by omega)] at hval

end CronoVM
