import CronoVM.Lib.TwoWord

/-!
# Counting and moving bits

The loops that count the bits of a word, told by their iterations: shifts to the right until nothing is left, and clearing the lowest bit
that is set. The exchange of neighbouring groups of bits, and what a sequence of such exchanges makes of a word.
-/

namespace CronoVM.BitCount

variable {w : Nat}

/-! ## Bits to the right -/

/-- As many shifts as a number has bits leave nothing, and no fewer do. -/
theorem ushiftRight_eq_zero_iff (x : BitVec w) (n : Nat) : x >>> n = 0#w ↔ x.toNat.size ≤ n := by
  rw [Nat.size_le, ← BitVec.toNat_inj, BitVec.toNat_ushiftRight, BitVec.toNat_zero, Nat.shiftRight_eq_div_pow,
    Nat.div_eq_zero_iff_lt (Nat.two_pow_pos n)]

/-! ## The lowest bit -/

/-- The number without its lowest bit. -/
def clearLowest (x : BitVec w) : BitVec w := x &&& (x - 1#w)

/-- One less than an even number. -/
theorem concat_false_sub_one (y : BitVec w) : y.concat false - 1#(w + 1) = (y - 1#w).concat true := by
  apply BitVec.eq_of_toNat_eq
  have hy := y.isLt
  have hone : (1#(w + 1)).toNat = 1 := by
    rw [BitVec.toNat_ofNat, Nat.mod_eq_of_lt (Nat.one_lt_two_pow (Nat.succ_ne_zero w))]
  have hpow : 2 ^ (w + 1) = 2 * 2 ^ w := Nat.pow_succ'
  rw [BitVec.toNat_sub, hone, BitVec.toNat_concat, BitVec.toNat_concat, BitVec.toNat_sub, BitVec.toNat_ofNat, hpow]
  simp only [Bool.toNat_false, Bool.toNat_true, Nat.add_zero]
  rcases Nat.eq_zero_or_pos w with rfl | hpos
  · have hzero : y.toNat = 0 := by omega
    rw [hzero]
    rfl
  · rw [Nat.mod_eq_of_lt (Nat.one_lt_two_pow (Nat.pos_iff_ne_zero.mp hpos))]
    by_cases hy0 : y.toNat = 0
    · rw [hy0, Nat.zero_mul, Nat.add_zero, Nat.add_zero, Nat.mod_eq_of_lt (by omega), Nat.mod_eq_of_lt (by omega)]
      omega
    · have hleft : 2 * 2 ^ w - 1 + y.toNat * 2 = y.toNat * 2 - 1 + 2 * 2 ^ w := by omega
      have hright : 2 ^ w - 1 + y.toNat = y.toNat - 1 + 2 ^ w := by omega
      rw [hleft, hright, Nat.add_mod_right, Nat.add_mod_right, Nat.mod_eq_of_lt (by omega), Nat.mod_eq_of_lt (by omega)]
      omega

/-- One less than an odd number. -/
theorem concat_true_sub_one (y : BitVec w) : y.concat true - 1#(w + 1) = y.concat false := by
  have hsum : y.concat false + 1#(w + 1) = y.concat true := by
    apply BitVec.eq_of_toNat_eq
    have hy := y.isLt
    have hpow : 2 ^ (w + 1) = 2 * 2 ^ w := Nat.pow_succ'
    rw [BitVec.toNat_add, BitVec.toNat_concat, BitVec.toNat_concat, BitVec.toNat_ofNat,
      Nat.mod_eq_of_lt (Nat.one_lt_two_pow (Nat.succ_ne_zero w)), Bool.toNat_false, Bool.toNat_true, Nat.add_zero, hpow]
    exact Nat.mod_eq_of_lt (by omega)
  rw [← hsum, BitVec.add_sub_cancel]

theorem clearLowest_concat (y : BitVec w) (b : Bool) :
    clearLowest (y.concat b) = if b = true then y.concat false else (clearLowest y).concat false := by
  cases b with
  | true => rw [if_pos rfl, clearLowest, concat_true_sub_one, BitVec.concat_and_concat, BitVec.and_self, Bool.and_false]
  | false => rw [if_neg Bool.false_ne_true, clearLowest, concat_false_sub_one, BitVec.concat_and_concat, Bool.false_and, clearLowest]

/-- One bit less is set. -/
theorem toNat_cpop_clearLowest {x : BitVec w} (hx : x ≠ 0#w) : (clearLowest x).cpop.toNat + 1 = x.cpop.toNat := by
  induction x using BitVec.concat_induction with
  | nil => exact absurd rfl hx
  | @concat w y b ih =>
    rw [clearLowest_concat, BitVec.toNat_cpop_concat]
    cases b with
    | true =>
      rw [if_pos rfl, BitVec.toNat_cpop_concat, Bool.toNat_false, Bool.toNat_true]
      omega
    | false =>
      have hy : y ≠ 0#w := by
        rintro rfl
        exact hx BitVec.zero_concat_false
      rw [if_neg Bool.false_ne_true, BitVec.toNat_cpop_concat, Bool.toNat_false, Nat.zero_add, Nat.zero_add]
      exact ih hy

/-- A number without bits is 0. -/
theorem cpop_eq_zero_iff (x : BitVec w) : x.cpop.toNat = 0 ↔ x = 0#w := by
  constructor
  · intro h
    by_contra hx
    have hclear := toNat_cpop_clearLowest hx
    omega
  · rintro rfl
    rw [BitVec.cpop_zero, BitVec.toNat_zero]

theorem toNat_cpop_iterate (x : BitVec w) {n : Nat} (hn : n ≤ x.cpop.toNat) : (clearLowest^[n] x).cpop.toNat + n = x.cpop.toNat := by
  induction n with
  | zero => rfl
  | succ n ih =>
    have hbefore := ih (Nat.le_of_succ_le hn)
    have hne : clearLowest^[n] x ≠ 0#w := by
      rw [Ne, ← cpop_eq_zero_iff]
      omega
    rw [Function.iterate_succ_apply', ← hbefore, ← toNat_cpop_clearLowest hne]
    omega

/-- As many times as bits are set. -/
theorem clearLowest_iterate_eq_zero_iff (x : BitVec w) {n : Nat} (hn : n ≤ x.cpop.toNat) : clearLowest^[n] x = 0#w ↔ n = x.cpop.toNat := by
  have hcount := toNat_cpop_iterate x hn
  rw [← cpop_eq_zero_iff]
  omega

/-- A wider word has the bits of its low part. -/
theorem toNat_cpop_setWidth {v : Nat} (x : BitVec w) (h : w ≤ v) : (x.setWidth v).cpop.toNat = x.cpop.toNat := by
  obtain ⟨k, rfl⟩ := Nat.exists_eq_add_of_le h
  rw [BitVec.toNat_cpop, BitVec.toNat_cpop, BitVec.cpopNatRec_setWidth_of_le x (Nat.le_refl _), BitVec.cpopNatRec_of_le k w (Nat.le_refl w)]

/-! ## Trailing zeros -/

theorem toNat_ctz_zero : (0#w).ctz.toNat = w := by
  have hclz : (0#w).ctz = BitVec.ofNat w w := by
    rw [BitVec.ctz_eq_reverse_clz]
    exact BitVec.clz_eq_iff_eq_zero.mpr (BitVec.reverse_eq_zero_iff.mpr rfl)
  rw [hclz, BitVec.toNat_ofNat, Nat.mod_eq_of_lt Nat.lt_two_pow_self]

/-- The first bit that is set. -/
theorem getLsbD_iff_ctz {x : BitVec w} (hx : x ≠ 0#w) {n : Nat} (hn : n ≤ x.ctz.toNat) : x.getLsbD n = true ↔ n = x.ctz.toNat := by
  constructor
  · intro hbit
    by_contra hne
    rw [BitVec.getLsbD_false_of_lt_ctz (by omega)] at hbit
    nomatch hbit
  · rintro rfl
    exact BitVec.getLsbD_true_ctz_of_ne_zero hx

theorem toNat_ctz_lt {x : BitVec w} (hx : x ≠ 0#w) : x.ctz.toNat < w := by
  have hlt : x.ctz < BitVec.ofNat w w := BitVec.ctz_lt_iff_ne_zero.mpr hx
  rwa [BitVec.lt_def, BitVec.toNat_ofNat, Nat.mod_eq_of_lt Nat.lt_two_pow_self] at hlt

end CronoVM.BitCount
