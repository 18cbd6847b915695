import Mathlib.Algebra.BigOperators.Intervals
import Mathlib.Algebra.Ring.Parity
import Mathlib.Data.Nat.Factorization.Basic
import Mathlib.Tactic.Ring

/-!
# Fenwick trees

Counts of positions with prefix sums in logarithmic time: entry `i` of the tree holds the sum of the counts from `i - lowbit i` up to
`i - 1`, where `lowbit i` is the lowest bit of `i` that is set.
-/

namespace CronoVM.Fenwick

open Finset

/-! ## The lowest bit -/

/-- `i & -i`, on words of `w` bits. -/
def lowbit (w i : Nat) : Nat := (BitVec.ofNat w i &&& -BitVec.ofNat w i).toNat

/-- The lowest bit is the power of two in a number. -/
theorem lowbit_eq {w i a m : Nat} (hi : i < 2 ^ w) (hm : m % 2 = 1) (h : i = 2 ^ a * m) : lowbit w i = 2 ^ a := by
  have hpos : 0 < m := by omega
  have haw : a < w := by
    have hle : 2 ^ a ≤ i := by
      rw [h]
      exact Nat.le_mul_of_pos_right _ hpos
    exact (Nat.pow_lt_pow_iff_right (by omega)).mp (Nat.lt_of_le_of_lt hle hi)
  have hbit : ∀ j, i.testBit j = (decide (a ≤ j) && m.testBit (j - a)) := by
    intro j
    rw [h, Nat.testBit_two_pow_mul]
  have hodd : m.testBit 0 = true := by
    rw [Nat.testBit_zero]
    simp [hm]
  have heq : BitVec.ofNat w i &&& -BitVec.ofNat w i = BitVec.twoPow w a := by
    apply BitVec.eq_of_getLsbD_eq
    intro j hj
    have hbits : ∀ k < w, (BitVec.ofNat w i).getLsbD k = (decide (a ≤ k) && m.testBit (k - a)) := by
      intro k hk
      rw [BitVec.getLsbD_ofNat, hbit, decide_eq_true hk, Bool.true_and]
    rw [BitVec.getLsbD_and, BitVec.getLsbD_neg, BitVec.getLsbD_twoPow, hbits j hj]
    simp only [hj, haw, decide_true, Bool.true_and]
    by_cases hja : j = a
    · subst hja
      have hnone : ¬∃ k, k < j ∧ (BitVec.ofNat w i).getLsbD k = true := by
        rintro ⟨k, hk, hbk⟩
        rw [hbits k (by omega)] at hbk
        simp [Nat.not_le.mpr hk] at hbk
      rw [decide_eq_false hnone]
      simp [hodd]
    · by_cases hlt : j < a
      · simp [Nat.not_le.mpr hlt, Ne.symm hja]
      · have hex : ∃ k, k < j ∧ (BitVec.ofNat w i).getLsbD k = true :=
          ⟨a, by omega, by rw [hbits a haw]; simp [hodd]⟩
        rw [decide_eq_true hex]
        simp [Ne.symm hja]
  rw [lowbit, heq, BitVec.toNat_twoPow, Nat.mod_eq_of_lt (Nat.pow_lt_pow_right (by omega) haw)]

theorem exists_lowbit {w i : Nat} (h0 : 0 < i) (hi : i < 2 ^ w) :
    ∃ a b, i = 2 ^ a * (2 * b + 1) ∧ lowbit w i = 2 ^ a := by
  obtain ⟨a, m, hodd, h⟩ := Nat.exists_eq_pow_mul_and_not_dvd (Nat.pos_iff_ne_zero.mp h0) 2 (by decide)
  obtain ⟨b, rfl⟩ : ∃ b, m = 2 * b + 1 := ⟨m / 2, by omega⟩
  exact ⟨a, b, h, lowbit_eq hi (by omega) h⟩

theorem lowbit_pos {w i : Nat} (h0 : 0 < i) (hi : i < 2 ^ w) : 0 < lowbit w i := by
  obtain ⟨a, b, _, hlow⟩ := exists_lowbit h0 hi
  rw [hlow]
  exact Nat.two_pow_pos a

theorem lowbit_le {w i : Nat} (h0 : 0 < i) (hi : i < 2 ^ w) : lowbit w i ≤ i := by
  obtain ⟨a, b, heq, hlow⟩ := exists_lowbit h0 hi
  rw [hlow]
  exact heq ▸ Nat.le_mul_of_pos_right _ (by omega)

/-- The entries above `k` that cover it also cover `k + lowbit k`, and these are all. -/
theorem covers_next {w i k : Nat} (hk : 0 < k) (hki : k < i) (hi : i < 2 ^ w) :
    i - lowbit w i < k ↔ i - lowbit w i < k + lowbit w k ∧ k + lowbit w k ≤ i := by
  obtain ⟨a, b, heq, hlow⟩ := exists_lowbit (Nat.lt_trans hk hki) hi
  obtain ⟨c, d, hkeq, hklow⟩ := exists_lowbit hk (Nat.lt_trans hki hi)
  have hpa := Nat.two_pow_pos a
  have hpc := Nat.two_pow_pos c
  have hbase : i - lowbit w i = 2 ^ a * (2 * b) := by
    rw [hlow, heq, Nat.mul_add, Nat.mul_one, Nat.add_sub_cancel]
  have hie : i = 2 ^ a * (2 * b) + 2 ^ a := by rw [heq, Nat.mul_add, Nat.mul_one]
  rw [hbase, hklow]
  rcases Nat.lt_or_ge c (a + 1) with hca | hca
  · -- The lowest bit of `k` divides `i` and the start of what `i` covers.
    obtain ⟨e, he⟩ := Nat.exists_eq_add_of_le (Nat.le_of_lt_succ hca)
    have hpow : 2 ^ a = 2 ^ c * 2 ^ e := by rw [he, Nat.pow_add]
    have hk' : k = 2 ^ c * (2 * d + 1) := hkeq
    have hi' : i = 2 ^ c * (2 ^ e * (2 * b) + 2 ^ e) := by rw [hie, hpow]; ring
    have hb' : 2 ^ a * (2 * b) = 2 ^ c * (2 ^ e * (2 * b)) := by rw [hpow]; ring
    have hk2 : k + 2 ^ c = 2 ^ c * (2 * d + 1 + 1) := by rw [hk']; ring
    have hdi : 2 * d + 1 < 2 ^ e * (2 * b) + 2 ^ e := by
      rw [hk', hi'] at hki
      exact Nat.lt_of_mul_lt_mul_left hki
    rw [hb', hk2, hi', hk', Nat.mul_lt_mul_left hpc, Nat.mul_lt_mul_left hpc, Nat.mul_le_mul_left_iff hpc]
    constructor
    · intro h
      omega
    · rintro ⟨h, _⟩
      -- `2 ^ e * (2 * b)` is even, `2 * d + 1` is not.
      have hassoc : 2 ^ e * (2 * b) = 2 * (2 ^ e * b) := by ring
      omega
  · -- The lowest bit of `k` is too high for `k` to lie below `i` and above what `i` covers.
    obtain ⟨e, he⟩ := Nat.exists_eq_add_of_le hca
    have hpow : 2 ^ c = 2 ^ a * (2 * 2 ^ e) := by rw [he, Nat.pow_add, Nat.pow_succ]; ring
    have hk' : k = 2 ^ a * (2 * (2 ^ e * (2 * d + 1))) := by rw [hkeq, hpow]; ring
    have hk2 : k + 2 ^ c = 2 ^ a * (2 * (2 ^ e * (2 * d + 1) + 2 ^ e)) := by rw [hk', hpow]; ring
    rw [hk2, hk', heq, Nat.mul_lt_mul_left hpa, Nat.mul_lt_mul_left hpa, Nat.mul_le_mul_left_iff hpa]
    rw [hk', heq] at hki
    have hki' := Nat.lt_of_mul_lt_mul_left hki
    have hpe := Nat.two_pow_pos e
    omega

/-! ## The tree -/

/-- The tree of the counts `a` at positions below `n`. -/
def IsTree (w n : Nat) (bit a : Nat → Nat) : Prop :=
  ∀ i, 0 < i → i ≤ n → bit i + ∑ p ∈ range (i - lowbit w i), a p = ∑ p ∈ range i, a p

/-- `for (i; i <= n; i += i & -i) bit[i]++`, for at most `fuel` turns. -/
def addFrom (w n : Nat) : Nat → Nat → (Nat → Nat) → Nat → Nat
  | 0, _, bit => bit
  | fuel + 1, i, bit => if i ≤ n then addFrom w n fuel (i + lowbit w i) (Function.update bit i (bit i + 1)) else bit

/-- `for (i; i > 0; i -= i & -i) s += bit[i]`, for at most `fuel` turns. -/
def sumFrom (w : Nat) (bit : Nat → Nat) : Nat → Nat → Nat → Nat
  | 0, _, s => s
  | fuel + 1, i, s => if i > 0 then sumFrom w bit fuel (i - lowbit w i) (s + bit i) else s

section tree

variable {w n : Nat} {bit a : Nat → Nat}

theorem isTree_zero : IsTree w n (fun _ => 0) fun _ => 0 := by
  intro i _ _
  simp

/-- The entries that cover the position before `i` are counted up. -/
theorem addFrom_apply (hn : n < 2 ^ w) {fuel i : Nat} (hi : 0 < i) (hfuel : n < fuel + i) {j : Nat} (hj : 0 < j) (hjn : j ≤ n) :
    addFrom w n fuel i bit j = bit j + if j - lowbit w j < i ∧ i ≤ j then 1 else 0 := by
  induction fuel generalizing i bit with
  | zero =>
    rw [if_neg (by omega)]
    rfl
  | succ fuel ih =>
    unfold addFrom
    by_cases hin : i ≤ n
    · have hlow := lowbit_pos hi (Nat.lt_of_le_of_lt hin hn)
      rw [if_pos hin, ih (by omega) (by omega)]
      by_cases hji : j = i
      · subst hji
        have hle := lowbit_pos hj (Nat.lt_of_le_of_lt hjn hn)
        rw [Function.update_self, if_neg (by omega), if_pos (by omega)]
      · rw [Function.update_of_ne hji]
        congr 1
        by_cases hlt : i < j
        · have hnext := covers_next hi hlt (Nat.lt_of_le_of_lt hjn hn)
          simp only [Nat.le_of_lt hlt, and_true, hnext]
        · rw [if_neg (by omega), if_neg (by omega)]
    · rw [if_neg hin, if_neg (by omega)]
      rfl

/-- Counting up a position keeps the tree. -/
theorem IsTree.add (hn : n < 2 ^ w) (h : IsTree w n bit a) {pos : Nat} :
    IsTree w n (addFrom w n n (pos + 1) bit) (Function.update a pos (a pos + 1)) := by
  have hsum : ∀ x, ∑ p ∈ range x, Function.update a pos (a pos + 1) p = (∑ p ∈ range x, a p) + if pos < x then 1 else 0 := by
    intro x
    induction x with
    | zero => simp
    | succ x ih =>
      rw [sum_range_succ, sum_range_succ, ih]
      by_cases hx : x = pos
      · subst hx
        rw [Function.update_self, if_neg (by omega), if_pos (by omega)]
        omega
      · rw [Function.update_of_ne hx]
        by_cases hlt : pos < x
        · rw [if_pos hlt, if_pos (by omega)]
          omega
        · rw [if_neg hlt, if_neg (by omega)]
          omega
  intro i hi hin
  have hold := h i hi hin
  rw [addFrom_apply hn (Nat.succ_pos pos) (by omega) hi hin, hsum, hsum]
  have hle := lowbit_le hi (Nat.lt_of_le_of_lt hin hn)
  split_ifs <;> omega

/-- Summing down from `x` gives the counts below `x`. -/
theorem IsTree.sum (hn : n < 2 ^ w) (h : IsTree w n bit a) {fuel x s : Nat} (hx : x ≤ n) (hfuel : x ≤ fuel) :
    sumFrom w bit fuel x s = s + ∑ p ∈ range x, a p := by
  induction fuel generalizing x s with
  | zero =>
    obtain rfl : x = 0 := Nat.le_zero.mp hfuel
    simp [sumFrom]
  | succ fuel ih =>
    unfold sumFrom
    by_cases hpos : x > 0
    · have hlow := lowbit_pos hpos (Nat.lt_of_le_of_lt hx hn)
      have hnode := h x hpos hx
      rw [if_pos hpos, ih (by omega) (by omega)]
      omega
    · obtain rfl : x = 0 := by omega
      simp

end tree

end CronoVM.Fenwick
