import Mathlib.Tactic.Linarith
import CronoVM.Lemmas.Float64

/-!
# The product of two significands

The four words of the product, and the 53 bits that are taken out of it.
-/

namespace CronoVM

open CvmF64 Precision TwoWord

/-- A sum of words and its carry. -/
theorem add_carry (x y : Word) : ∃ s c : Word, x + y = s ∧ (if s < x then 1#32 else 0#32) = c ∧ c.toNat ≤ 1 ∧
    s.toNat + 2 ^ 32 * c.toNat = x.toNat + y.toNat := by
  have hcarry : (if x + y < x then 1#32 else 0#32 : Word).toNat = (x.toNat + y.toNat) / 2 ^ 32 := toNat_carry x y
  refine ⟨x + y, _, rfl, rfl, ?_, ?_⟩
  · have hx := x.isLt
    have hy := y.isLt
    omega
  · rw [hcarry, BitVec.toNat_add]
    exact Nat.mod_add_div _ _

/-- The number of four words, the lowest first. -/
def fourWords (w : Word × Word × Word × Word) : Nat :=
  w.1.toNat + 2 ^ 32 * w.2.1.toNat + 2 ^ 64 * w.2.2.1.toNat + 2 ^ 96 * w.2.2.2.toNat

/-- No carry of four partial products is lost if their sum has four words. -/
theorem fourWords_cvmDMulSum {p0Lo p0Hi p1Lo p1Hi p2Lo p2Hi p3Lo p3Hi : Word} {n : Nat} (hn : n < 2 ^ 128)
    (hsum : p0Lo.toNat + 2 ^ 32 * p0Hi.toNat + 2 ^ 32 * (p1Lo.toNat + 2 ^ 32 * p1Hi.toNat) + 2 ^ 32 * (p2Lo.toNat + 2 ^ 32 * p2Hi.toNat) +
      2 ^ 64 * (p3Lo.toNat + 2 ^ 32 * p3Hi.toNat) = n) :
    fourWords (cvmDMulSum p0Lo p0Hi p1Lo p1Hi p2Lo p2Hi p3Lo p3Hi) = n := by
  obtain ⟨s1a, c1a, h1a, hc1a, hle1a, hnat1a⟩ := add_carry p0Hi p1Lo
  obtain ⟨w1, c1b, h1b, hc1b, hle1b, hnat1b⟩ := add_carry s1a p2Lo
  obtain ⟨s2a, c2a, h2a, hc2a, hle2a, hnat2a⟩ := add_carry p1Hi p2Hi
  obtain ⟨s2b, c2b, h2b, hc2b, hle2b, hnat2b⟩ := add_carry s2a p3Lo
  have hcarry : (c1a + c1b).toNat = c1a.toNat + c1b.toNat := toNat_add_of_lt (Nat.lt_of_le_of_lt (Nat.add_le_add hle1a hle1b) (by decide))
  obtain ⟨w2, c2c, h2c, hc2c, hle2c, hnat2c⟩ := add_carry s2b (c1a + c1b)
  have hle : c2a.toNat + c2b.toNat + c2c.toNat ≤ 3 := Nat.add_le_add (Nat.add_le_add hle2a hle2b) hle2c
  have hlast : (c2a + c2b).toNat = c2a.toNat + c2b.toNat := toNat_add_of_lt (Nat.lt_of_le_of_lt (Nat.add_le_add hle2a hle2b) (by decide))
  have hlast' : (c2a + c2b + c2c).toNat = c2a.toNat + c2b.toNat + c2c.toNat := by
    rw [toNat_add_of_lt (hlast.symm ▸ Nat.lt_of_le_of_lt hle (by decide)), hlast]
  rw [hcarry] at hnat2c
  have htotal : p0Lo.toNat + 2 ^ 32 * w1.toNat + 2 ^ 64 * w2.toNat + 2 ^ 96 * (p3Hi.toNat + (c2a + c2b + c2c).toNat) = n := by
    rw [hlast', ← hsum]
    linarith only [hnat1a, hnat1b, hnat2a, hnat2b, hnat2c]
  have hw3 : (p3Hi + (c2a + c2b + c2c)).toNat = p3Hi.toNat + (c2a + c2b + c2c).toNat := by
    refine toNat_add_of_lt (Nat.lt_of_mul_lt_mul_left (Nat.lt_of_le_of_lt ?_ (Nat.lt_of_lt_of_eq hn (Nat.pow_add 2 96 32))))
    rw [← htotal]
    exact Nat.le_add_left _ _
  have hwords : cvmDMulSum p0Lo p0Hi p1Lo p1Hi p2Lo p2Hi p3Lo p3Hi = (p0Lo, w1, w2, p3Hi + (c2a + c2b + c2c)) := by
    unfold cvmDMulSum
    dsimp only
    rw [h1a, hc1a, h1b, hc1b, h2a, hc2a, h2b, hc2b, h2c, hc2c]
  rw [hwords, ← htotal, ← hw3]
  rfl

/-- The two words of a product of words. -/
theorem toNat_mul_mulhu (x y : Word) : (x * y).toNat + 2 ^ 32 * (cvmMulhu x y).toNat = x.toNat * y.toNat := by
  rw [cvmMulhu, toNat_mulHigh, BitVec.toNat_mul]
  exact Nat.mod_add_div _ _

/-- The product of two significands is exact. -/
theorem fourWords_cvmDMulWords (ah al bh bl : Word) :
    fourWords (cvmDMulWords ah al bh bl) = (2 ^ 32 * ah.toNat + al.toNat) * (2 ^ 32 * bh.toNat + bl.toNat) := by
  have hlt : ∀ h l : Word, 2 ^ 32 * h.toNat + l.toNat < 2 ^ 64 := by
    intro h l
    have hh := h.isLt
    have hl := l.isLt
    omega
  have hmax : (2 ^ 32 * ah.toNat + al.toNat) * (2 ^ 32 * bh.toNat + bl.toNat) < 2 ^ 64 * 2 ^ 64 := Nat.mul_lt_mul'' (hlt ah al) (hlt bh bl)
  rw [← Nat.pow_add] at hmax
  refine fourWords_cvmDMulSum hmax ?_
  rw [toNat_mul_mulhu, toNat_mul_mulhu, toNat_mul_mulhu, toNat_mul_mulhu]
  ring

/-! ## The significand of a product -/

/-- The word that a shift of two words leaves in place of the low one. -/
theorem toNat_funnel (hi lo : Word) {s : Nat} (hs : s < 32) :
    (hi <<< (32 - s) ||| lo >>> s).toNat = (2 ^ 32 * hi.toNat + lo.toNat) / 2 ^ s % 2 ^ 32 := by
  have hshift := congrArg low (ushiftRight_append_of_lt hi lo hs)
  rw [low_append, BitVec.or_comm] at hshift
  rw [← hshift, low, BitVec.toNat_setWidth, BitVec.toNat_ushiftRight, toNat_append, Nat.shiftRight_eq_div_pow]

/-- The 53 bits from the leading one of a product on. -/
theorem mul_significand {w0 w1 w2 w3 : Word} {n : Nat} (hn : fourWords (w0, w1, w2, w3) = n) (hlo : 2 ^ 104 ≤ n) (hhi : n < 2 ^ 106) :
    ∃ extra : Nat, (if (w3 >>> 9) &&& 1#32 ≠ 0#32 then 1 else 0) = extra ∧ extra ≤ 1 ∧
      2 ^ (53 - 1) * 2 ^ (52 + extra) ≤ n ∧ n < 2 ^ 53 * 2 ^ (52 + extra) ∧
      2 ^ 32 * ((w3 <<< (32 - (52 + extra - 32))) ||| (w2 >>> (52 + extra - 32))).toNat +
        ((w2 <<< (32 - (52 + extra - 32))) ||| (w1 >>> (52 + extra - 32))).toNat = n / 2 ^ (52 + extra) := by
  have hwords : w0.toNat + 2 ^ 32 * w1.toNat + 2 ^ 64 * w2.toNat + 2 ^ 96 * w3.toNat = n := hn
  have hw0 := w0.isLt
  have hw1 := w1.isLt
  have hw2 := w2.isLt
  have hbit : ((w3 >>> 9) &&& 1#32).toNat = w3.toNat / 2 ^ 9 % 2 ^ 1 := by
    rw [show (1#32 : Word) = BitVec.ofNat 32 (2 ^ 1 - 1) from rfl, toNat_and_mask _ 1 (by decide), BitVec.toNat_ushiftRight,
      Nat.shiftRight_eq_div_pow]
  have hzero : (w3 >>> 9) &&& 1#32 ≠ 0#32 ↔ w3.toNat / 2 ^ 9 % 2 ^ 1 ≠ 0 := by
    rw [← hbit]
    exact not_congr ⟨fun h => congrArg BitVec.toNat h, fun h => BitVec.eq_of_toNat_eq h⟩
  by_cases hextra : (w3 >>> 9) &&& 1#32 ≠ 0#32
  · have hset := hzero.mp hextra
    refine ⟨1, if_pos hextra, Nat.le_refl 1, by omega, by omega, ?_⟩
    rw [toNat_funnel w3 w2 (by decide), toNat_funnel w2 w1 (by decide)]
    omega
  · have hset := mt hzero.mpr hextra
    refine ⟨0, if_neg hextra, Nat.zero_le 1, by omega, by omega, ?_⟩
    rw [toNat_funnel w3 w2 (by decide), toNat_funnel w2 w1 (by decide)]
    omega

/-- A product as a scaled quotient of the product of the significands. -/
theorem val_mul (a b : CvmF64) (extra : Nat) : a.val * b.val = signed (a.sign ^^ b.sign)
    (((a.sig * b.sig : ℕ) : ℚ) / (2 ^ (52 + extra) : ℕ) * 2 ^ (((a.exp : ℤ) + b.exp - 1023 + extra) - 1075)) := by
  have hpow : (2 : ℚ) ^ ((a.exp : ℤ) - 1075) * 2 ^ ((b.exp : ℤ) - 1075) =
      2 ^ (((a.exp : ℤ) + b.exp - 1023 + extra) - 1075) / (2 ^ (52 + extra) : ℕ) := by
    rw [Nat.cast_pow, Nat.cast_two, ← zpow_natCast, ← zpow_add₀ two_ne_zero, ← zpow_sub₀ two_ne_zero]
    congr 1
    push_cast
    ring
  rw [val, val, signed_mul, mul_mul_mul_comm, hpow, Nat.cast_mul]
  congr 1
  ring

/-- The product of two normal doubles is the exact product, cut towards zero to 53 significant bits. -/
theorem encodes_cvmDMul {a b : CvmF64} (ha : a.IsNormal) (hb : b.IsNormal) :
    Encodes (a.sign ^^ b.sign) (truncate 53 (a.val * b.val)) (cvmDMul a b) := by
  have hwords : fourWords (cvmDMulWords a.full a.lo b.full b.lo) = a.sig * b.sig := fourWords_cvmDMulWords _ _ _ _
  obtain ⟨w0, w1, w2, w3, hw⟩ : ∃ w0 w1 w2 w3, cvmDMulWords a.full a.lo b.full b.lo = (w0, w1, w2, w3) := ⟨_, _, _, _, rfl⟩
  have hlo : 2 ^ 52 * 2 ^ 52 ≤ a.sig * b.sig := Nat.mul_le_mul a.sig_lo b.sig_lo
  have hhi : a.sig * b.sig < 2 ^ 53 * 2 ^ 53 := Nat.mul_lt_mul'' a.sig_hi b.sig_hi
  rw [← Nat.pow_add] at hlo hhi
  rw [hw] at hwords
  obtain ⟨extra, hextra, hle, hlo', hhi', hsig⟩ := mul_significand hwords hlo hhi
  have hval := val_mul a b extra
  generalize a.sig * b.sig = n at *
  have hlow : 2 ^ 52 ≤ n / 2 ^ (52 + extra) := (Nat.le_div_iff_mul_le (Nat.two_pow_pos _)).mpr hlo'
  have hhigh : n / 2 ^ (52 + extra) < 2 ^ 53 := (Nat.div_lt_iff_lt_mul (Nat.two_pow_pos _)).mpr hhi'
  have hresult := encodes_result (toNat_sign_xor a b) (e := (a.exp : ℤ) + b.exp - 1023 + extra) hsig hlow hhigh
  have hfinite : cvmDMul a b = cvmDMulFinite (cvmDSign a ^^^ cvmDSign b) a b := by
    rw [cvmDMul, ha.not_nan, hb.not_nan, ha.not_inf, hb.not_inf, ha.not_zero, hb.not_zero]
    rfl
  rw [hval, truncate_quotient hlo' hhi' _ (by decide), ← sign_xor, hfinite]
  change Encodes _ _ (cvmDMulResult _ _ _ (cvmDMulWords a.full a.lo b.full b.lo).2.1 (cvmDMulWords a.full a.lo b.full b.lo).2.2.1
    (cvmDMulWords a.full a.lo b.full b.lo).2.2.2)
  rw [hw, cvmDMulResult, a.toInt_exp, b.toInt_exp, hextra]
  exact hresult

/-- A product with a power of two is exact where it stays in range. -/
theorem cvmDMul_two_pow {x c : CvmF64} (hx : x.IsNormal) (hc : c.IsNormal) {k : ℤ} (hk : c.val = 2 ^ k) (hlow : 0 < x.exp + k)
    (hhigh : x.exp + k < 2047) : (cvmDMul x c).IsNormal ∧ (cvmDMul x c).val = x.val * 2 ^ k := by
  have hscaled : x.val * 2 ^ k = signed x.sign ((x.sig : ℚ) * 2 ^ ((x.exp + k) - 1075)) := by
    have hpow : (2 : ℚ) ^ ((x.exp + k) - 1075) = 2 ^ ((x.exp : ℤ) - 1075) * 2 ^ k := by
      rw [← zpow_add₀ two_ne_zero]
      congr 1
      ring
    have hsign : x.val * 2 ^ k = x.val * signed false (2 ^ k) := rfl
    rw [hsign, val, signed_mul, Bool.xor_false, hpow, mul_assoc]
  have hencodes := encodes_cvmDMul hx hc
  have hexpo := expo_sig x.sig_lo x.sig_hi x.sign (x.exp + k)
  rw [hk, hscaled, truncate_sig x.sig_lo x.sig_hi] at hencodes
  rw [hscaled]
  exact hencodes.of_range (by omega) (by omega)

end CronoVM
