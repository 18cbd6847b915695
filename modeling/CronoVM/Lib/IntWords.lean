import CronoVM.Lib.NarrowInt
import CronoVM.Lib.TwoWord

/-!
# Integers as words

An integer as a number of words of `w` bits, the lowest first. Adding goes word by word with a carry, and a narrower signed integer is the
same words with the sign of the last one extended.
-/

namespace CronoVM.IntWords

open NarrowInt TwoWord

variable {w : Nat}

/-- The lowest `n` words of an integer. -/
def words (w : Nat) : Nat → Int → List (BitVec w)
  | 0, _ => []
  | n + 1, z => BitVec.ofInt w z :: words w n (z / 2 ^ w)

@[simp] theorem length_words (n : Nat) (z : Int) : (words w n z).length = n := by
  induction n generalizing z with
  | zero => rfl
  | succ n ih => rw [words, List.length_cons, ih]

/-- The words of a natural number. -/
theorem words_natCast (n k : Nat) : words w (n + 1) k = BitVec.ofNat w k :: words w n (k / 2 ^ w : Nat) := by
  have hdiv : (k : Int) / 2 ^ w = (k / 2 ^ w : Nat) := by
    rw [Int.natCast_ediv, Int.natCast_pow]
    rfl
  rw [words, hdiv, BitVec.ofInt_natCast]

/-- A word is an integer modulo `2 ^ w`. -/
theorem cast_toNat_ofInt (z : Int) : ((BitVec.ofInt w z).toNat : Int) = z % 2 ^ w := by
  have hpos : (0 : Int) < 2 ^ w := Int.pow_pos (by decide)
  have hcast : ((2 ^ w : Nat) : Int) = 2 ^ w := Int.natCast_pow 2 w
  rw [BitVec.toNat_ofInt, hcast, Int.toNat_of_nonneg (Int.emod_nonneg _ (Int.ne_of_gt hpos))]

/-- Words forget what is above them. -/
theorem words_add_mul (n : Nat) (z k : Int) : words w n (z + 2 ^ (w * n) * k) = words w n z := by
  induction n generalizing z with
  | zero => rfl
  | succ n ih =>
    have hpos : (2 : Int) ^ w ≠ 0 := Int.ne_of_gt (Int.pow_pos (by decide))
    have hpow : (2 : Int) ^ (w * (n + 1)) * k = 2 ^ w * (2 ^ (w * n) * k) := by
      rw [Nat.mul_succ, Nat.add_comm, Int.pow_add, Int.mul_assoc]
    have hword : BitVec.ofInt w (z + 2 ^ w * (2 ^ (w * n) * k)) = BitVec.ofInt w z := by
      apply BitVec.eq_of_toNat_eq
      apply Int.ofNat.inj
      have hmod : (z + 2 ^ w * (2 ^ (w * n) * k)) % 2 ^ w = z % 2 ^ w := Int.add_mul_emod_self_left _ _ _
      exact (cast_toNat_ofInt _).trans (hmod.trans (cast_toNat_ofInt _).symm)
    rw [hpow, words, words, hword, Int.add_mul_ediv_left _ _ hpos, ih]

/-- The words of the rest modulo a power that leaves them. -/
theorem words_emod (n : Nat) (z : Int) : words w n (z % 2 ^ (w * n)) = words w n z := by
  have hz := Int.emod_add_mul_ediv z (2 ^ (w * n))
  rw [← words_add_mul n (z % 2 ^ (w * n)) (z / 2 ^ (w * n)), hz]

/-- The last word. -/
theorem words_succ (n : Nat) (z : Int) : words w (n + 1) z = words w n z ++ [BitVec.ofInt w (z / 2 ^ (w * n))] := by
  induction n generalizing z with
  | zero => rw [words, words, Nat.mul_zero, Int.pow_zero, Int.ediv_one, words, List.nil_append]
  | succ n ih =>
    have hdiv : z / 2 ^ w / 2 ^ (w * n) = z / 2 ^ (w * (n + 1)) := by
      rw [Int.ediv_ediv_of_nonneg (Int.le_of_lt (Int.pow_pos (by decide))), ← Int.pow_add, Nat.mul_succ, Nat.add_comm]
    rw [words, ih, hdiv, words, List.cons_append]

/-! ## Sums -/

/-- A sum of integers above the lowest word: what is carried from their words. -/
theorem add_ediv (x y c : Int) : (x + y + c) / 2 ^ w =
    x / 2 ^ w + y / 2 ^ w + ((BitVec.ofInt w x).toNat + (BitVec.ofInt w y).toNat + c) / 2 ^ w := by
  have hpos : (2 : Int) ^ w ≠ 0 := Int.ne_of_gt (Int.pow_pos (by decide))
  have hx := Int.emod_add_mul_ediv x (2 ^ w)
  have hy := Int.emod_add_mul_ediv y (2 ^ w)
  have hsum : x + y + c = x % 2 ^ w + y % 2 ^ w + c + 2 ^ w * (x / 2 ^ w + y / 2 ^ w) := by
    rw [Int.mul_add]
    omega
  rw [hsum, Int.add_mul_ediv_left _ _ hpos, cast_toNat_ofInt, cast_toNat_ofInt, Int.add_comm]

/-- The next word of a sum, from the next words of the integers and the carry. -/
theorem ofInt_ediv_add {x y c : Int} {k : BitVec w} (hk : (k.toNat : Int) = ((BitVec.ofInt w x).toNat + (BitVec.ofInt w y).toNat + c) / 2 ^ w) :
    BitVec.ofInt w (x / 2 ^ w) + BitVec.ofInt w (y / 2 ^ w) + k = BitVec.ofInt w ((x + y + c) / 2 ^ w) := by
  have hcarry : BitVec.ofInt w (k.toNat : Int) = k := by rw [BitVec.ofInt_natCast, BitVec.ofNat_toNat, BitVec.setWidth_eq]
  rw [add_ediv, ← hk, BitVec.ofInt_add, BitVec.ofInt_add, hcarry]

/-- The carry of two words and a carry. -/
theorem carry_or_carry (x y : BitVec w) {c : BitVec w} (hc : c.toNat ≤ 1) :
    (carry x y ||| carry (x + y) c).toNat = (x.toNat + y.toNat + c.toNat) / 2 ^ w := by
  have hx := x.isLt
  have hy := y.isLt
  have hpos := Nat.two_pow_pos w
  have hsplit := Nat.div_add_mod (x.toNat + y.toNat) (2 ^ w)
  have hfirst : (carry x y).toNat = (x.toNat + y.toNat) / 2 ^ w := toNat_carry x y
  have hsecond : (carry (x + y) c).toNat = ((x.toNat + y.toNat) % 2 ^ w + c.toNat) / 2 ^ w := by rw [toNat_carry, BitVec.toNat_add]
  have hsum : (x.toNat + y.toNat + c.toNat) / 2 ^ w = (carry x y).toNat + (carry (x + y) c).toNat := by
    have hparts : x.toNat + y.toNat + c.toNat = 2 ^ w * (carry x y).toNat + ((x.toNat + y.toNat) % 2 ^ w + c.toNat) := by
      rw [hfirst]
      omega
    rw [hparts, Nat.mul_add_div hpos, hsecond]
  -- not both
  have hle : (x.toNat + y.toNat + c.toNat) / 2 ^ w ≤ 1 := Nat.le_of_lt_succ (Nat.div_lt_of_lt_mul (by omega))
  rw [BitVec.toNat_or, hsum]
  rw [hsum] at hle
  rcases Nat.eq_zero_or_pos (carry x y).toNat with hzero | hone
  · rw [hzero, Nat.zero_or, Nat.zero_add]
  · have hzero : (carry (x + y) c).toNat = 0 := by omega
    rw [hzero, Nat.or_zero, Nat.add_zero]

/-! ## Narrower integers -/

/-- The signed rest modulo `2 ^ (m + n)`, above the lowest `m` bits. -/
theorem bmod_two_pow_add {n : Nat} (hn : 0 < n) (m : Nat) (z : Int) :
    z.bmod (2 ^ (m + n)) = 2 ^ m * (z / 2 ^ m).bmod (2 ^ n) + z % 2 ^ m := by
  obtain ⟨n, rfl⟩ := Nat.exists_eq_succ_of_ne_zero (Nat.ne_of_gt hn)
  have hm : (0 : Int) < 2 ^ m := Int.pow_pos (by decide)
  have hz := Int.emod_add_mul_ediv z (2 ^ m)
  have hrest : 0 ≤ z % 2 ^ m ∧ z % 2 ^ m < 2 ^ m := ⟨Int.emod_nonneg _ (Int.ne_of_gt hm), Int.emod_lt_of_pos _ hm⟩
  obtain ⟨hge, hlt, k, hk⟩ := (Int.bmod_eq_iff (a := z / 2 ^ m) (Nat.two_pow_pos n.succ)).mp rfl
  have hhalf : ((2 ^ n.succ : Nat) : Int) = 2 * 2 ^ n := by
    rw [Nat.pow_succ, Nat.mul_comm]
    push_cast
    rfl
  have hall : ((2 ^ (m + n.succ) : Nat) : Int) = 2 * (2 ^ m * 2 ^ n) := by
    rw [Nat.pow_add, Int.natCast_mul, hhalf, Int.mul_left_comm]
    push_cast
    rfl
  rw [hhalf] at hge hlt hk
  refine (Int.bmod_eq_iff (Nat.two_pow_pos _)).mpr ?_
  rw [hall]
  have hlow : 2 ^ m * -(2 ^ n : Int) ≤ 2 ^ m * (z / 2 ^ m).bmod (2 ^ n.succ) := Int.mul_le_mul_of_nonneg_left (by omega) (Int.le_of_lt hm)
  have hhigh : 2 ^ m * ((z / 2 ^ m).bmod (2 ^ n.succ) + 1) ≤ 2 ^ m * 2 ^ n := Int.mul_le_mul_of_nonneg_left (by omega) (Int.le_of_lt hm)
  rw [Int.mul_neg] at hlow
  rw [Int.mul_add, Int.mul_one] at hhigh
  refine ⟨by omega, by omega, k, ?_⟩
  have hdiff : 2 ^ m * ((z / 2 ^ m).bmod (2 ^ n.succ) - z / 2 ^ m) = 2 ^ m * (2 * 2 ^ n * k) := by rw [hk]
  rw [Int.mul_sub] at hdiff
  have hassoc : 2 * (2 ^ m * 2 ^ n) * k = 2 ^ m * (2 * 2 ^ n * k) := by ring
  omega

/-- The sign of the low bits of a word, extended. -/
theorem extendLow_ofInt {n : Nat} (hn : n ≤ w) (z : Int) : extendLow true n (BitVec.ofInt w z) = BitVec.ofInt w (z.bmod (2 ^ n)) := by
  rw [extendLow, if_pos rfl, BitVec.signExtend, toInt_setWidth_of_le hn, BitVec.toInt_ofInt, Int.bmod_bmod_of_dvd (Nat.pow_dvd_pow 2 hn)]

/-- The words of a signed integer of `w * m + n` bits: the last one has its sign extended. -/
theorem words_bmod {n : Nat} (hpos : 0 < n) (hn : n ≤ w) (m : Nat) (z : Int) :
    words w (m + 1) (z.bmod (2 ^ (w * m + n))) = words w m z ++ [extendLow true n (BitVec.ofInt w (z / 2 ^ (w * m)))] := by
  have hm : (0 : Int) < 2 ^ (w * m) := Int.pow_pos (by decide)
  have hrest : z % 2 ^ (w * m) / 2 ^ (w * m) = 0 :=
    Int.ediv_eq_zero_of_lt (Int.emod_nonneg _ (Int.ne_of_gt hm)) (Int.emod_lt_of_pos _ hm)
  rw [bmod_two_pow_add hpos, Int.add_comm, words_succ, words_add_mul, words_emod, Int.add_mul_ediv_left _ _ (Int.ne_of_gt hm), hrest,
    Int.zero_add, extendLow_ofInt hn]

/-- An integer fits in `w * m + n` signed bits when its last word, which it fits in, is the sign extension of its low bits. -/
theorem bmod_eq_self_iff {n : Nat} (hpos : 0 < n) (hn : n ≤ w) (m : Nat) {z : Int} (hlow : -2 ^ (w - 1) ≤ z / 2 ^ (w * m))
    (hhigh : z / 2 ^ (w * m) < 2 ^ (w - 1)) : z.bmod (2 ^ (w * m + n)) = z ↔
      BitVec.ofInt w (z / 2 ^ (w * m)) = extendLow true n (BitVec.ofInt w (z / 2 ^ (w * m))) := by
  have hw : 0 < w := by omega
  have hm : (0 : Int) < 2 ^ (w * m) := Int.pow_pos (by decide)
  have hz := Int.emod_add_mul_ediv z (2 ^ (w * m))
  have hpow : ((2 ^ w : Nat) : Int) = 2 * 2 ^ (w - 1) := by
    obtain ⟨v, rfl⟩ := Nat.exists_eq_succ_of_ne_zero (Nat.ne_of_gt hw)
    rw [Nat.pow_succ, Nat.mul_comm]
    push_cast
    rfl
  have hword : (BitVec.ofInt w (z / 2 ^ (w * m))).toInt = z / 2 ^ (w * m) := by
    rw [BitVec.toInt_ofInt]
    exact Int.bmod_eq_of_le_mul_two (by omega) (by omega)
  have hext : (extendLow true n (BitVec.ofInt w (z / 2 ^ (w * m)))).toInt = (z / 2 ^ (w * m)).bmod (2 ^ n) := by
    rw [extendLow, if_pos rfl, BitVec.toInt_signExtend_of_le hn, toInt_setWidth_of_le hn, BitVec.toInt_ofInt,
      Int.bmod_bmod_of_dvd (Nat.pow_dvd_pow 2 hn)]
  rw [bmod_two_pow_add hpos, ← BitVec.toInt_inj, hword, hext]
  constructor
  · intro h
    have hmul : 2 ^ (w * m) * (z / 2 ^ (w * m)).bmod (2 ^ n) = 2 ^ (w * m) * (z / 2 ^ (w * m)) := by omega
    exact (Int.eq_of_mul_eq_mul_left (Int.ne_of_gt hm) hmul).symm
  · intro h
    rw [← h]
    omega

end CronoVM.IntWords
