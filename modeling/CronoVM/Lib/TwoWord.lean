import Mathlib.Data.Nat.Size
import Mathlib.Tactic.Ring

/-!
# Integers of two words

An integer of `2 w` bits as a high and a low word of `w` bits, and how its operations are computed from those of the words: carries and
borrows by unsigned comparisons, products with the high half of a word product, shifts by what crosses from one word to the other.
-/

namespace CronoVM.TwoWord

variable {w : Nat}

/-! ## Sums and products -/

/-- The carry of a sum of words. -/
def carry (x y : BitVec w) : BitVec w := if x + y < x then 1 else 0

/-- The borrow of a difference of words. -/
def borrow (x y : BitVec w) : BitVec w := if x < y then 1 else 0

/-- The high word of a product of words. -/
def mulHigh (x y : BitVec w) : BitVec w := ((x.setWidth (w + w) * y.setWidth (w + w)) >>> w).setWidth w

theorem toNat_append (hi lo : BitVec w) : (hi ++ lo).toNat = 2 ^ w * hi.toNat + lo.toNat := by
  rw [BitVec.toNat_append, ← Nat.shiftLeft_add_eq_or_of_lt lo.isLt, Nat.shiftLeft_eq, Nat.mul_comm]

/-- The low word of a number. -/
def low (x : BitVec (w + w)) : BitVec w := x.setWidth w

/-- The high word of a number. -/
def high (x : BitVec (w + w)) : BitVec w := (x >>> w).setWidth w

@[simp] theorem low_append (hi lo : BitVec w) : low (hi ++ lo) = lo := BitVec.setWidth_append_eq_right

@[simp] theorem high_append (hi lo : BitVec w) : high (hi ++ lo) = hi := by
  apply BitVec.eq_of_toNat_eq
  rw [high, BitVec.toNat_setWidth, BitVec.toNat_ushiftRight, toNat_append, Nat.shiftRight_eq_div_pow, Nat.mul_add_div (Nat.two_pow_pos w),
    Nat.div_eq_of_lt lo.isLt, Nat.add_zero, Nat.mod_eq_of_lt hi.isLt]

@[simp] theorem append_high_low (x : BitVec (w + w)) : high x ++ low x = x := by
  apply BitVec.eq_of_toNat_eq
  rw [toNat_append, high, low, BitVec.toNat_setWidth, BitVec.toNat_setWidth, BitVec.toNat_ushiftRight, Nat.shiftRight_eq_div_pow,
    Nat.mod_eq_of_lt (Nat.div_lt_of_lt_mul (by rw [← Nat.pow_add]; exact x.isLt)), Nat.div_add_mod]

/-- Two words are told from what their number is modulo `2 ^ w` and, above that, modulo `2 ^ w` again. -/
theorem eq_append {x : BitVec (w + w)} {n : Nat} {hi lo : BitVec w} (hx : x.toNat = n % 2 ^ (w + w)) (hlo : lo.toNat = n % 2 ^ w)
    (hhi : hi.toNat = n / 2 ^ w % 2 ^ w) : x = hi ++ lo := by
  apply BitVec.eq_of_toNat_eq
  rw [toNat_append, hx, hlo, hhi, Nat.pow_add, Nat.mod_mul, Nat.add_comm]

theorem toNat_carry (x y : BitVec w) : (carry x y).toNat = (x.toNat + y.toNat) / 2 ^ w := by
  have hx := x.isLt
  have hy := y.isLt
  have hwrap : x + y < x ↔ (x.toNat + y.toNat) % 2 ^ w < x.toNat := by rw [BitVec.lt_def, BitVec.toNat_add]
  unfold carry
  by_cases hover : 2 ^ w ≤ x.toNat + y.toNat
  · have hmod : (x.toNat + y.toNat) % 2 ^ w = x.toNat + y.toNat - 2 ^ w := by
      rw [Nat.mod_eq_sub_mod hover, Nat.mod_eq_of_lt (by omega)]
    have hdiv : (x.toNat + y.toNat) / 2 ^ w = 1 := Nat.div_eq_of_lt_le (by omega) (by omega)
    have hone : (1 : BitVec w).toNat = 1 := (BitVec.toNat_ofNat 1 w).trans (Nat.mod_eq_of_lt (by omega))
    rw [if_pos (hwrap.mpr (by omega)), hdiv, hone]
  · have hlt : x.toNat + y.toNat < 2 ^ w := by omega
    have hmod := Nat.mod_eq_of_lt hlt
    rw [if_neg (fun h => by have := hwrap.mp h; omega), Nat.div_eq_of_lt hlt]
    exact BitVec.toNat_zero

/-- Sums word by word, with the carry. -/
theorem add_append (ah al bh bl : BitVec w) : (ah ++ al) + (bh ++ bl) = (ah + bh + carry al bl) ++ (al + bl) := by
  have hsum : 2 ^ w * ah.toNat + al.toNat + (2 ^ w * bh.toNat + bl.toNat) = 2 ^ w * (ah.toNat + bh.toNat) + (al.toNat + bl.toNat) := by
    rw [Nat.mul_add]
    omega
  refine eq_append (by rw [BitVec.toNat_add, toNat_append, toNat_append, hsum]) ?_ ?_
  · rw [BitVec.toNat_add, Nat.mul_add_mod]
  · rw [BitVec.toNat_add, BitVec.toNat_add, Nat.mod_add_mod, toNat_carry, Nat.mul_add_div (Nat.two_pow_pos w)]

/-- What is subtracted is carried when it is added again. -/
theorem carry_sub (x y : BitVec w) : carry (x - y) y = borrow x y := by
  have hx := x.isLt
  have hy := y.isLt
  unfold carry borrow
  rw [BitVec.sub_add_cancel]
  refine if_congr ?_ rfl rfl
  rw [BitVec.lt_def, BitVec.lt_def, BitVec.toNat_sub]
  by_cases hle : y.toNat ≤ x.toNat
  · have hsum : 2 ^ w - y.toNat + x.toNat = 2 ^ w + (x.toNat - y.toNat) := by omega
    rw [hsum, Nat.add_mod_left, Nat.mod_eq_of_lt (by omega)]
    omega
  · rw [Nat.mod_eq_of_lt (by omega)]
    omega

/-- Differences word by word, with the borrow. -/
theorem sub_append (ah al bh bl : BitVec w) : (ah ++ al) - (bh ++ bl) = (ah - bh - borrow al bl) ++ (al - bl) := by
  have hhigh : ah - bh - borrow al bl + bh + borrow al bl = ah := by
    rw [BitVec.add_assoc, BitVec.add_comm bh, ← BitVec.add_assoc, BitVec.sub_add_cancel, BitVec.sub_add_cancel]
  have hadd : ((ah - bh - borrow al bl) ++ (al - bl)) + (bh ++ bl) = ah ++ al := by
    rw [add_append, carry_sub, BitVec.sub_add_cancel, hhigh]
  rw [← hadd, BitVec.add_sub_cancel]

theorem toNat_mulHigh (x y : BitVec w) : (mulHigh x y).toNat = x.toNat * y.toNat / 2 ^ w := by
  have hprod : x.toNat * y.toNat < 2 ^ (w + w) := by
    rw [Nat.pow_add]
    exact Nat.mul_lt_mul'' x.isLt y.isLt
  have hlt : x.toNat * y.toNat / 2 ^ w < 2 ^ w := Nat.div_lt_of_lt_mul (by rwa [← Nat.pow_add])
  rw [mulHigh, BitVec.toNat_setWidth, BitVec.toNat_ushiftRight, BitVec.toNat_mul, BitVec.toNat_setWidth_of_le (Nat.le_add_right w w),
    BitVec.toNat_setWidth_of_le (Nat.le_add_right w w), Nat.mod_eq_of_lt hprod, Nat.shiftRight_eq_div_pow, Nat.mod_eq_of_lt hlt]

/-- Products of two words, from word products and the high half of one. -/
theorem mul_append (ah al bh bl : BitVec w) : (ah ++ al) * (bh ++ bl) = (mulHigh al bl + al * bh + ah * bl) ++ (al * bl) := by
  have hprod : (2 ^ w * ah.toNat + al.toNat) * (2 ^ w * bh.toNat + bl.toNat) =
      2 ^ w * (2 ^ w * (ah.toNat * bh.toNat) + (al.toNat * bh.toNat + ah.toNat * bl.toNat)) + al.toNat * bl.toNat := by
    ring
  refine eq_append (by rw [BitVec.toNat_mul, toNat_append, toNat_append, hprod]) ?_ ?_
  · rw [BitVec.toNat_mul, Nat.mul_add_mod]
  · rw [Nat.mul_add_div (Nat.two_pow_pos w), Nat.add_assoc, Nat.mul_add_mod]
    simp only [BitVec.toNat_add, BitVec.toNat_mul, toNat_mulHigh, Nat.add_mod_mod, Nat.mod_add_mod]
    congr 1
    omega

/-! ## Shifts -/

/-- A left shift by less than a word: bits cross to the high word. -/
theorem shiftLeft_append_of_lt (hi lo : BitVec w) {n : Nat} (hn : n < w) :
    (hi ++ lo) <<< n = (hi <<< n ||| lo >>> (w - n)) ++ (lo <<< n) := by
  apply BitVec.eq_of_getLsbD_eq
  intro i hiw
  simp only [BitVec.getLsbD_shiftLeft, BitVec.getLsbD_append, BitVec.getLsbD_or, BitVec.getLsbD_ushiftRight]
  by_cases hlow : i < w
  · by_cases hin : i < n
    · simp [hiw, hlow, hin]
    · simp [hiw, hlow, hin, show i - n < w by omega]
  · by_cases hcross : i - n < w
    · simp [hiw, hlow, hcross, show ¬i < n by omega, show i - w < n by omega, show i - w < w by omega,
        show w - n + (i - w) = i - n by omega]
    · simp [hiw, hlow, hcross, show ¬i < n by omega, show ¬i - w < n by omega, show i - w < w by omega,
        show i - n - w = i - w - n by omega, BitVec.getLsbD_of_ge lo (w - n + (i - w)) (by omega)]

/-- A left shift by a word or more: only bits of the low word are left, in the high one. -/
theorem shiftLeft_append_of_le (hi lo : BitVec w) {n : Nat} (hn : w ≤ n) : (hi ++ lo) <<< n = (lo <<< (n - w)) ++ (0 : BitVec w) := by
  apply BitVec.eq_of_getLsbD_eq
  intro i hiw
  simp only [BitVec.getLsbD_shiftLeft, BitVec.getLsbD_append]
  by_cases hlow : i < w
  · simp [hiw, hlow, show i < n by omega]
  · by_cases hin : i < n
    · simp [hiw, hlow, hin, show i - w < n - w by omega]
    · simp [hiw, hlow, hin, show ¬i - w < n - w by omega, show i - w < w by omega, show i - n < w by omega,
        show i - w - (n - w) = i - n by omega]

/-- A logical right shift by less than a word. -/
theorem ushiftRight_append_of_lt (hi lo : BitVec w) {n : Nat} (hn : n < w) :
    (hi ++ lo) >>> n = (hi >>> n) ++ (lo >>> n ||| hi <<< (w - n)) := by
  apply BitVec.eq_of_getLsbD_eq
  intro i hiw
  simp only [BitVec.getLsbD_ushiftRight, BitVec.getLsbD_append, BitVec.getLsbD_or, BitVec.getLsbD_shiftLeft]
  by_cases hlow : i < w
  · by_cases hin : n + i < w
    · simp [hlow, hin, show i < w - n by omega]
    · simp [hlow, hin, show ¬i < w - n by omega, show n + i - w = i - (w - n) by omega, BitVec.getLsbD_of_ge lo (n + i) (by omega)]
  · simp [hlow, show ¬n + i < w by omega, show n + i - w = n + (i - w) by omega]

/-- A logical right shift by a word or more. -/
theorem ushiftRight_append_of_le (hi lo : BitVec w) {n : Nat} (hn : w ≤ n) : (hi ++ lo) >>> n = (0 : BitVec w) ++ (hi >>> (n - w)) := by
  apply BitVec.eq_of_getLsbD_eq
  intro i hiw
  simp only [BitVec.getLsbD_ushiftRight, BitVec.getLsbD_append]
  by_cases hlow : i < w
  · simp [hlow, show ¬n + i < w by omega, show n + i - w = n - w + i by omega]
  · simp [hlow, show ¬n + i < w by omega, show w ≤ n + i - w by omega]

/-- The sign of a number is that of its high word. -/
theorem msb_append (hw : 0 < w) (hi lo : BitVec w) : (hi ++ lo).msb = hi.msb := by
  rw [BitVec.msb_append, if_neg (by omega)]

/-- An arithmetic right shift by less than a word. -/
theorem sshiftRight_append_of_lt (hi lo : BitVec w) {n : Nat} (hn : n < w) :
    (hi ++ lo).sshiftRight n = (hi.sshiftRight n) ++ (lo >>> n ||| hi <<< (w - n)) := by
  apply BitVec.eq_of_getLsbD_eq
  intro i hiw
  rw [BitVec.getLsbD_sshiftRight, msb_append (by omega)]
  simp only [BitVec.getLsbD_sshiftRight, BitVec.getLsbD_ushiftRight, BitVec.getLsbD_append, BitVec.getLsbD_or,
    BitVec.getLsbD_shiftLeft]
  by_cases hlow : i < w
  · by_cases hin : n + i < w
    · simp [hiw, hlow, hin, show i < w - n by omega, show n + i < w + w by omega]
    · simp [hlow, hin, show ¬w + w ≤ i by omega, show ¬i < w - n by omega, show n + i < w + w by omega,
        show n + i - w = i - (w - n) by omega, BitVec.getLsbD_of_ge lo (n + i) (by omega)]
  · by_cases hin : n + (i - w) < w
    · simp [hiw, hlow, hin, show ¬w ≤ i - w by omega, show ¬n + i < w by omega, show n + i < w + w by omega,
        show n + i - w = n + (i - w) by omega]
    · simp [hiw, hlow, hin, show ¬w ≤ i - w by omega, show ¬n + i < w + w by omega]

/-- An arithmetic right shift by a word or more: the high word is all sign. -/
theorem sshiftRight_append_of_le (hi lo : BitVec w) {n : Nat} (hw : 0 < w) (hn : w ≤ n) :
    (hi ++ lo).sshiftRight n = (hi.sshiftRight (w - 1)) ++ (hi.sshiftRight (n - w)) := by
  apply BitVec.eq_of_getLsbD_eq
  intro i hiw
  rw [BitVec.getLsbD_sshiftRight, msb_append hw]
  simp only [BitVec.getLsbD_sshiftRight, BitVec.getLsbD_append]
  by_cases hlow : i < w
  · by_cases hin : n - w + i < w
    · simp [hiw, hlow, hin, show ¬w ≤ i by omega, show ¬n + i < w by omega, show n + i < w + w by omega,
        show n + i - w = n - w + i by omega]
    · simp [hiw, hlow, hin, show ¬w ≤ i by omega, show ¬n + i < w + w by omega]
  · have hlast : (if w - 1 + (i - w) < w then hi.getLsbD (w - 1 + (i - w)) else hi.msb) = hi.msb := by
      split
      · rw [show w - 1 + (i - w) = w - 1 by omega]
        exact (BitVec.msb_eq_getLsbD_last hi).symm
      · rfl
    rw [if_neg (by omega), if_neg hlow, hlast]
    simp [show ¬w + w ≤ i by omega, show ¬w ≤ i - w by omega]

/-! ## Comparisons -/

theorem append_inj {ah al bh bl : BitVec w} : ah ++ al = bh ++ bl ↔ ah = bh ∧ al = bl := by
  constructor
  · intro h
    have hnat := congrArg BitVec.toNat h
    rw [toNat_append, toNat_append] at hnat
    have hhigh := congrArg (· / 2 ^ w) hnat
    have hlow := congrArg (· % 2 ^ w) hnat
    simp only [Nat.mul_add_div (Nat.two_pow_pos w), Nat.div_eq_of_lt al.isLt, Nat.div_eq_of_lt bl.isLt, Nat.add_zero] at hhigh
    simp only [Nat.mul_add_mod, Nat.mod_eq_of_lt al.isLt, Nat.mod_eq_of_lt bl.isLt] at hlow
    exact ⟨BitVec.eq_of_toNat_eq hhigh, BitVec.eq_of_toNat_eq hlow⟩
  · rintro ⟨rfl, rfl⟩
    rfl

theorem decide_eq_append (ah al bh bl : BitVec w) : decide (ah ++ al = bh ++ bl) = (decide (ah = bh) && decide (al = bl)) := by
  rw [← Bool.decide_and, decide_eq_decide]
  exact append_inj

theorem decide_ne_append (ah al bh bl : BitVec w) : decide (ah ++ al ≠ bh ++ bl) = (decide (ah ≠ bh) || decide (al ≠ bl)) := by
  rw [← Bool.decide_or, decide_eq_decide, ← not_and_or]
  exact not_congr append_inj

/-- Numbers of two digits compare by the first, then by the second. -/
theorem lt_iff_of_digits {m a b c d : Nat} (hb : b < m) (hd : d < m) : m * a + b < m * c + d ↔ a < c ∨ (a = c ∧ b < d) := by
  rcases Nat.lt_trichotomy a c with hlt | rfl | hlt
  · have hmul : m * (a + 1) ≤ m * c := Nat.mul_le_mul_left m hlt
    rw [Nat.mul_succ] at hmul
    omega
  · omega
  · have hmul : m * (c + 1) ≤ m * a := Nat.mul_le_mul_left m hlt
    rw [Nat.mul_succ] at hmul
    omega

theorem ult_append (ah al bh bl : BitVec w) : (ah ++ al).ult (bh ++ bl) = (ah.ult bh || (decide (ah = bh) && al.ult bl)) := by
  rw [Bool.eq_iff_iff]
  simp only [BitVec.ult, toNat_append, Bool.or_eq_true, Bool.and_eq_true, decide_eq_true_eq, lt_iff_of_digits al.isLt bl.isLt,
    BitVec.toNat_inj]

theorem ule_append (ah al bh bl : BitVec w) : (ah ++ al).ule (bh ++ bl) = (ah.ult bh || (decide (ah = bh) && al.ule bl)) := by
  have hle : ∀ m n : Nat, m ≤ n ↔ m < n + 1 := fun m n => Nat.lt_succ_iff.symm
  rw [Bool.eq_iff_iff]
  simp only [BitVec.ult, BitVec.ule, toNat_append, Bool.or_eq_true, Bool.and_eq_true, decide_eq_true_eq]
  rw [← BitVec.toNat_inj, ← Nat.not_lt, lt_iff_of_digits bl.isLt al.isLt]
  omega

/-- Signed numbers compare by their high words as signed ones, and by their low words as unsigned ones. -/
theorem slt_append (hw : 0 < w) (ah al bh bl : BitVec w) : (ah ++ al).slt (bh ++ bl) = (ah.slt bh || (decide (ah = bh) && al.ult bl)) := by
  rw [BitVec.slt_eq_ult, BitVec.slt_eq_ult, msb_append hw, msb_append hw, ult_append]
  by_cases heq : ah = bh
  · subst heq
    simp
  · simp [heq]

theorem sle_append (hw : 0 < w) (ah al bh bl : BitVec w) : (ah ++ al).sle (bh ++ bl) = (ah.slt bh || (decide (ah = bh) && al.ule bl)) := by
  rw [BitVec.sle_eq_ule, BitVec.slt_eq_ult, msb_append hw, msb_append hw, ule_append]
  by_cases heq : ah = bh
  · subst heq
    simp
  · simp [heq]

/-! ## Signs -/

/-- A word of copies of the sign. -/
def signWord (x : BitVec w) : BitVec w := if x.msb = true then BitVec.allOnes w else 0#w

theorem sshiftRight_last (hw : 0 < w) (x : BitVec w) : x.sshiftRight (w - 1) = signWord x := by
  apply BitVec.eq_of_getLsbD_eq
  intro i hi
  have hlast : (if w - 1 + i < w then x.getLsbD (w - 1 + i) else x.msb) = x.msb := by
    split
    · rw [show w - 1 + i = w - 1 by omega]
      exact (BitVec.msb_eq_getLsbD_last x).symm
    · rfl
  rw [BitVec.getLsbD_sshiftRight, hlast, decide_eq_false (by omega : ¬w ≤ i), Bool.not_false, Bool.true_and, signWord]
  cases x.msb with
  | true => rw [if_pos rfl, BitVec.getLsbD_allOnes, decide_eq_true hi]
  | false => rw [if_neg Bool.false_ne_true, BitVec.getLsbD_zero]

/-- The absolute value without a branch: the number and its sign, by `xor` and a difference. -/
theorem abs_append (hw : 0 < w) (hi lo : BitVec w) :
    (hi ++ lo).abs = ((hi ^^^ signWord hi) ++ (lo ^^^ signWord hi)) - (signWord hi ++ signWord hi) := by
  have hones : BitVec.allOnes w ++ BitVec.allOnes w = BitVec.allOnes (w + w) := by
    apply BitVec.eq_of_getLsbD_eq
    intro i hi
    rw [BitVec.getLsbD_append, BitVec.getLsbD_allOnes, BitVec.getLsbD_allOnes, BitVec.getLsbD_allOnes, decide_eq_true hi]
    by_cases hlow : i < w
    · rw [if_pos hlow, decide_eq_true hlow]
    · rw [if_neg hlow, decide_eq_true (by omega)]
  rw [BitVec.abs_eq, msb_append hw, signWord, ← BitVec.xor_append]
  cases hi.msb with
  | true => rw [if_pos rfl, if_pos rfl, hones, BitVec.xor_allOnes, ← BitVec.neg_one_eq_allOnes, BitVec.sub_neg, BitVec.neg_eq_not_add]
  | false => rw [if_neg Bool.false_ne_true, if_neg Bool.false_ne_true, BitVec.zero_append_zero, BitVec.xor_zero, BitVec.sub_zero]

/-! ## Leading zeros -/

/-- The bits that are no leading zeros are those of the number. -/
theorem toNat_clz (x : BitVec w) : x.clz.toNat + x.toNat.size = w := by
  by_cases hzero : x = 0#w
  · have hclz : x.clz = BitVec.ofNat w w := BitVec.clz_eq_iff_eq_zero.mpr hzero
    rw [hclz, hzero, BitVec.toNat_ofNat, Nat.mod_eq_of_lt Nat.lt_two_pow_self, BitVec.toNat_zero, Nat.size_zero, Nat.add_zero]
  · have hpos : 0 < w := by
      rcases Nat.eq_zero_or_pos w with rfl | h
      · exact absurd (BitVec.eq_nil x) hzero
      · exact h
    have hlt : x.clz.toNat < w := by
      have hne : x.clz.toNat < (BitVec.ofNat w w).toNat := BitVec.clz_lt_iff_ne_zero.mpr hzero
      rwa [BitVec.toNat_ofNat, Nat.mod_eq_of_lt Nat.lt_two_pow_self] at hne
    have hupper := Nat.size_le.mpr (BitVec.toNat_lt_two_pow_sub_clz (x := x))
    have hlower := Nat.lt_size.mpr (BitVec.two_pow_sub_clz_le_toNat_of_ne_zero hpos hzero)
    omega

/-- The bits of a number of two words. -/
theorem size_append (hi lo : BitVec w) : (hi ++ lo).toNat.size = if hi = 0#w then lo.toNat.size else w + hi.toNat.size := by
  rw [toNat_append]
  split
  · subst hi
    rw [BitVec.toNat_zero, Nat.mul_zero, Nat.zero_add]
  case isFalse hne =>
    have hpos : 0 < hi.toNat := Nat.pos_of_ne_zero fun h => hne (BitVec.eq_of_toNat_eq h)
    have hbits : ∀ n, (2 ^ w * hi.toNat + lo.toNat).size ≤ w + n ↔ hi.toNat.size ≤ n := by
      intro n
      have hlo := lo.isLt
      rw [Nat.size_le, Nat.size_le, Nat.pow_add]
      constructor
      · intro h
        exact Nat.lt_of_mul_lt_mul_left (Nat.lt_of_le_of_lt (Nat.le_add_right _ _) h)
      · intro h
        have hmul := Nat.mul_le_mul_left (2 ^ w) (Nat.succ_le_of_lt h)
        rw [Nat.mul_succ] at hmul
        omega
    have hle : w < (2 ^ w * hi.toNat + lo.toNat).size := by
      rw [Nat.lt_size]
      exact Nat.le_trans (Nat.le_mul_of_pos_right _ hpos) (Nat.le_add_right _ _)
    have hge := (hbits hi.toNat.size).mpr (Nat.le_refl _)
    have hle' := (hbits ((2 ^ w * hi.toNat + lo.toNat).size - w)).mp (by omega)
    omega

/-- The leading zeros of a number are those of its high word, and those of its low one where the high one is zero. -/
theorem clz_append (hi lo : BitVec w) : (hi ++ lo).clz.toNat = if hi = 0#w then w + lo.clz.toNat else hi.clz.toNat := by
  have hall := toNat_clz (hi ++ lo)
  have hhi := toNat_clz hi
  have hlo := toNat_clz lo
  rw [size_append] at hall
  by_cases hzero : hi = 0#w
  · rw [if_pos hzero] at hall ⊢
    omega
  · rw [if_neg hzero] at hall ⊢
    omega

end CronoVM.TwoWord
