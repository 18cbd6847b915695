import Mathlib.Data.Nat.Init
import Mathlib.Tactic.Ring

/-!
# Long division in base two

A restoring division takes the bits of the dividend from the highest down. Each bit doubles the remainder, and the divisor is taken away
if it fits. What the loop has after any number of bits are the quotient and the remainder of those bits.
-/

namespace CronoVM.LongDivision

variable {a b bit m n : Nat}

/-- The quotient of a dividend of `m` bits; a divisor of zero fits every time. -/
def quotient (a b m : Nat) : Nat := if b = 0 then 2 ^ m - 1 else a / b

/-- The remainder with the next bit. -/
theorem mod_next (hbit : bit < 2) :
    (2 * a + bit) % b = if b ≤ 2 * (a % b) + bit then 2 * (a % b) + bit - b else 2 * (a % b) + bit := by
  rcases Nat.eq_zero_or_pos b with rfl | hb
  · simp only [Nat.mod_zero, Nat.zero_le, if_true, Nat.sub_zero]
  have hlt := Nat.mod_lt a hb
  have hsplit : 2 * a + bit = 2 * (a % b) + bit + b * (2 * (a / b)) := by
    conv_lhs => rw [← Nat.mod_add_div a b]
    ring
  rw [hsplit, Nat.add_mul_mod_self_left]
  by_cases hfits : b ≤ 2 * (a % b) + bit
  · rw [if_pos hfits, Nat.mod_eq_sub_mod hfits, Nat.mod_eq_of_lt (by omega)]
  · rw [if_neg hfits, Nat.mod_eq_of_lt (by omega)]

/-- The quotient with the next bit. -/
theorem quotient_next (hbit : bit < 2) :
    quotient (2 * a + bit) b (m + 1) = 2 * quotient a b m + if b ≤ 2 * (a % b) + bit then 1 else 0 := by
  unfold quotient
  rcases Nat.eq_zero_or_pos b with rfl | hb
  · have hpos := Nat.two_pow_pos m
    rw [if_pos rfl, if_pos rfl, if_pos (Nat.zero_le _), Nat.pow_succ]
    omega
  have hne : b ≠ 0 := Nat.ne_of_gt hb
  have hlt := Nat.mod_lt a hb
  have hsplit : 2 * a + bit = 2 * (a % b) + bit + b * (2 * (a / b)) := by
    conv_lhs => rw [← Nat.mod_add_div a b]
    ring
  rw [if_neg hne, if_neg hne, hsplit, Nat.add_mul_div_left _ _ hb]
  by_cases hfits : b ≤ 2 * (a % b) + bit
  · rw [if_pos hfits, Nat.div_eq_of_lt_le (k := 1) (by omega) (by omega), Nat.add_comm]
  · rw [if_neg hfits, Nat.div_eq_of_lt (by omega), Nat.zero_add, Nat.add_zero]

/-- The bits of a number from bit `n` up are those from the next one up, and that bit. -/
theorem prefix_next (a n : Nat) : a / 2 ^ n = 2 * (a / 2 ^ (n + 1)) + a / 2 ^ n % 2 := by
  rw [Nat.pow_succ, ← Nat.div_div_eq_div_mul]
  omega

end CronoVM.LongDivision
