import Mathlib.Algebra.Order.Floor.Ring
import Mathlib.Data.Int.Log
import Mathlib.Data.Nat.Size
import Mathlib.Tactic.Linarith
import Mathlib.Tactic.NormNum
import Mathlib.Tactic.Ring

/-!
# Rounding to a number of significant bits

The exponent of a number, the spacing of the numbers of `p` significant bits next to it, and what is left of a number that is cut or
rounded to `p` significant bits. A number is given by a scaled significand `y * 2 ^ e` with `2 ^ (p - 1) ≤ y < 2 ^ p`: then the spacing is
`2 ^ e`, and rounding acts on `y` as rounding to an integer does.
-/

namespace CronoVM.Precision

/-- The numeral `2` by one name. The powers of two in an `ulp`, a scale and an error bound are then the same terms wherever they are written. -/
instance atLeastTwo_two : Nat.AtLeastTwo 2 := ⟨le_rfl⟩

/-! ## Signs -/

section signs

variable {K : Type*} [Field K]

/-- A number with a sign. -/
def signed (s : Bool) (x : K) : K := if s then -x else x

/-- The signs of a product are combined. -/
theorem signed_mul (s t : Bool) (x y : K) : signed s x * signed t y = signed (s ^^ t) (x * y) := by
  cases s with
  | false =>
    cases t with
    | false => rfl
    | true => exact mul_neg x y
  | true =>
    cases t with
    | false => exact neg_mul x y
    | true => exact neg_mul_neg x y

/-- The signs of a quotient are combined. -/
theorem signed_div (s t : Bool) (x y : K) : signed s x / signed t y = signed (s ^^ t) (x / y) := by
  cases s with
  | false =>
    cases t with
    | false => rfl
    | true => exact div_neg x
  | true =>
    cases t with
    | false => exact neg_div y x
    | true => exact neg_div_neg_eq x y

/-- A common sign comes out of a difference. -/
theorem signed_sub (s : Bool) (x y : K) : signed s x - signed s y = signed s (x - y) := by
  cases s with
  | false => rfl
  | true => exact neg_sub_neg x y |>.trans (neg_sub x y).symm

/-- A common sign comes out of a sum. -/
theorem signed_add (s : Bool) (x y : K) : signed s x + signed s y = signed s (x + y) := by
  cases s with
  | false => rfl
  | true => exact (neg_add x y).symm

/-- The other sign negates. -/
theorem signed_not (s : Bool) (x : K) : signed (!s) x = -signed s x := by
  cases s with
  | false => rfl
  | true => exact (neg_neg x).symm

/-- A sign keeps zero, and only zero. -/
theorem signed_eq_zero {s : Bool} {x : K} : signed s x = 0 ↔ x = 0 := by
  cases s with
  | false => exact Iff.rfl
  | true => exact neg_eq_zero

variable [LinearOrder K]

/-- The magnitude does not see the sign. -/
theorem abs_signed (s : Bool) (x : K) : |signed s x| = |x| := by
  cases s with
  | false => rfl
  | true => exact abs_neg x

variable [IsStrictOrderedRing K]

/-- A number with a positive magnitude is negative where its sign says so. -/
theorem signed_lt_zero {s : Bool} {x : K} (hx : 0 < x) : signed s x < 0 ↔ s = true := by
  cases s with
  | false => exact iff_of_false (not_lt.mpr hx.le) Bool.false_ne_true
  | true => exact iff_of_true (neg_neg_of_pos hx) rfl

/-- A number is its magnitude with its sign. -/
theorem signed_abs (x : K) : signed (decide (x < 0)) |x| = x := by
  rcases lt_or_ge x 0 with hx | hx
  · rw [decide_eq_true hx, abs_of_neg hx]
    exact neg_neg x
  · rw [decide_eq_false (not_lt.mpr hx), abs_of_nonneg hx]
    rfl

end signs

/-! ## Rounding -/

variable {K : Type*} [Field K] [LinearOrder K] [IsStrictOrderedRing K] [FloorRing K]

/-- The power of two at or below the magnitude of a number, as an exponent. -/
def expo (x : K) : ℤ := Int.log 2 |x|

/-- The spacing of the numbers of `p` significant bits at a number. -/
def ulp (p : ℕ) (x : K) : K := 2 ^ (expo x + 1 - p)

/-- The nearest integer, of two the even one. -/
def halfEven (y : K) : ℤ := if Int.fract y < 1 / 2 ∨ (Int.fract y = 1 / 2 ∧ Even ⌊y⌋) then ⌊y⌋ else ⌊y⌋ + 1

/-- A number cut towards zero to `p` significant bits. -/
def truncate (p : ℕ) (x : K) : K := signed (decide (x < 0)) (⌊|x| / ulp p x⌋ * ulp p x)

/-- A number rounded to `p` significant bits, ties to even. -/
def roundEven (p : ℕ) (x : K) : K := signed (decide (x < 0)) (halfEven (|x| / ulp p x) * ulp p x)

/-- The integer part of a number. -/
def towardZero (x : K) : ℤ := if x < 0 then ⌈x⌉ else ⌊x⌋

/-- Towards zero, the floor of the magnitude gets the sign. -/
theorem towardZero_signed (s : Bool) {x : K} (hx : 0 ≤ x) : towardZero (signed s x) = if s then -⌊x⌋ else ⌊x⌋ := by
  cases s with
  | false => exact if_neg (not_lt.mpr hx)
  | true =>
    rcases eq_or_lt_of_le hx with rfl | hpos
    · have hzero : signed true (0 : K) = 0 := signed_eq_zero.mpr rfl
      rw [hzero, towardZero, if_neg (lt_irrefl 0), Int.floor_zero]
      rfl
    · have hneg : signed true x < 0 := (signed_lt_zero hpos).mpr rfl
      rw [towardZero, if_pos hneg]
      exact Int.ceil_neg

/-- An integer stays. -/
theorem towardZero_intCast (n : ℤ) : towardZero (n : K) = n := by
  rw [towardZero, Int.ceil_intCast, Int.floor_intCast, ite_self]

/-- The exponent of a number between powers of two. -/
theorem expo_range {x : K} {m n : ℤ} (hlo : 2 ^ m ≤ |x|) (hhi : |x| < 2 ^ n) : m ≤ expo x ∧ expo x < n := by
  have hpos : 0 < |x| := lt_of_lt_of_le (zpow_pos two_pos m) hlo
  exact ⟨(Int.zpow_le_iff_le_log Nat.one_lt_two hpos).mp (by exact_mod_cast hlo),
    (Int.lt_zpow_iff_log_lt Nat.one_lt_two hpos).mp (by exact_mod_cast hhi)⟩

/-- The exponent is told by the powers of two around a magnitude. -/
theorem expo_eq {x : K} {n : ℤ} (hlo : 2 ^ n ≤ |x|) (hhi : |x| < 2 ^ (n + 1)) : expo x = n := by
  obtain ⟨hle, hlt⟩ := expo_range hlo hhi
  omega

/-- A number lies between the powers of two around its exponent. -/
theorem zpow_expo_le {x : K} (hx : x ≠ 0) : 2 ^ expo x ≤ |x| := by
  have hlog : ((2 : ℕ) : K) ^ Int.log 2 |x| ≤ |x| := Int.zpow_log_le_self Nat.one_lt_two (abs_pos.mpr hx)
  exact_mod_cast hlog

/-- The exponent bounds the number from above. -/
theorem lt_zpow_expo (x : K) : |x| < 2 ^ (expo x + 1) := by
  have hlog : |x| < ((2 : ℕ) : K) ^ (Int.log 2 |x| + 1) := Int.lt_zpow_succ_log_self Nat.one_lt_two |x|
  exact_mod_cast hlog

/-- The exponents of numbers that are within a power of two. -/
theorem expo_le_add {x y : K} {k : ℤ} (hx : x ≠ 0) (h : |x| ≤ |y| * 2 ^ k) : expo x ≤ expo y + k := by
  have hlt : |x| < 2 ^ (expo y + k + 1) := calc
    |x| ≤ |y| * 2 ^ k := h
    _ < 2 ^ (expo y + 1) * 2 ^ k := mul_lt_mul_of_pos_right (lt_zpow_expo y) (zpow_pos two_pos k)
    _ = 2 ^ (expo y + k + 1) := by
      rw [← zpow_add₀ two_ne_zero]
      congr 1
      ring
  have hrange := (expo_range (zpow_expo_le hx) hlt).2
  omega

/-- The exponent of a root is half of the exponent. -/
theorem expo_mul_self {x : K} (hx : x ≠ 0) : expo (x * x) / 2 = expo x := by
  have hle := zpow_expo_le hx
  have hlt := lt_zpow_expo x
  have hlo : 2 ^ (expo x + expo x) ≤ |x * x| := by
    rw [abs_mul, zpow_add₀ two_ne_zero]
    exact mul_le_mul hle hle (zpow_pos two_pos _).le (abs_nonneg x)
  have hhi : |x * x| < 2 ^ (expo x + 1 + (expo x + 1)) := by
    rw [abs_mul, zpow_add₀ two_ne_zero]
    exact mul_lt_mul'' hlt hlt (abs_nonneg x) (abs_nonneg x)
  have hrange := expo_range hlo hhi
  omega

/-- The spacing grows with the magnitude. -/
theorem le_ulp (p : ℕ) {x : K} {n : ℤ} (h : 2 ^ n ≤ |x|) : 2 ^ (n + 1 - p) ≤ ulp p x := by
  have hpos : 0 < |x| := lt_of_lt_of_le (zpow_pos two_pos n) h
  have hle : n ≤ expo x := (Int.zpow_le_iff_le_log Nat.one_lt_two hpos).mp (by exact_mod_cast h)
  exact zpow_le_zpow_right₀ one_le_two (by omega)

/-- The ulp of a number below a power of two. -/
theorem ulp_le (p : ℕ) {x : K} {n : ℤ} (hx : x ≠ 0) (h : |x| < 2 ^ n) : ulp p x ≤ 2 ^ (n - p) := by
  have hpos : 0 < |x| := abs_pos.mpr hx
  have hlt : expo x < n := (Int.lt_zpow_iff_log_lt Nat.one_lt_two hpos).mp (by exact_mod_cast h)
  exact zpow_le_zpow_right₀ one_le_two (by omega)

omit [IsStrictOrderedRing K] in
/-- The ulp does not see the sign. -/
theorem ulp_signed (p : ℕ) (s : Bool) (x : K) : ulp p (signed s x) = ulp p x := by
  rw [ulp, ulp, expo, expo, abs_signed]

/-- An ulp is never zero. -/
theorem ulp_pos (p : ℕ) (x : K) : 0 < ulp p x := zpow_pos two_pos _

/-- Cutting changes a number by less than the spacing. -/
theorem abs_truncate_sub_lt (p : ℕ) (x : K) : |truncate p x - x| < ulp p x := by
  have hulp := ulp_pos p x
  have hsplit : |x| = |x| / ulp p x * ulp p x := (div_mul_cancel₀ _ hulp.ne').symm
  have herror : truncate p x - x = signed (decide (x < 0)) ((⌊|x| / ulp p x⌋ - |x| / ulp p x) * ulp p x) := by
    rw [sub_mul, ← signed_sub, ← hsplit, signed_abs]
    rfl
  rw [herror, abs_signed, abs_mul, abs_of_pos hulp, abs_sub_comm, ← Int.fract, abs_of_nonneg (Int.fract_nonneg _)]
  exact mul_lt_of_lt_one_left hulp (Int.fract_lt_one _)

/-- A number that is not negative is not made larger by cutting it. -/
theorem truncate_le (p : ℕ) {x : K} (hx : 0 ≤ x) : truncate p x ≤ x := by
  have hulp := ulp_pos p x
  have hfloor : (⌊|x| / ulp p x⌋ : K) * ulp p x ≤ |x| := by
    rw [← le_div_iff₀ hulp]
    exact Int.floor_le _
  rw [truncate, decide_eq_false (not_lt.mpr hx)]
  exact hfloor.trans_eq (abs_of_nonneg hx)

/-- The nearest integer is half a unit off at most. -/
theorem abs_halfEven_sub_le (y : K) : |(halfEven y : K) - y| ≤ 1 / 2 := by
  have hsplit := Int.floor_add_fract y
  have hfract := Int.fract_nonneg y
  have hlt := Int.fract_lt_one y
  unfold halfEven
  split
  · next h =>
    have hle : Int.fract y ≤ 1 / 2 := by
      rcases h with h | h
      · exact h.le
      · exact h.1.le
    rw [abs_le]
    constructor <;> linarith
  · next h =>
    have hge : 1 / 2 ≤ Int.fract y := not_lt.mp fun hlt => h (Or.inl hlt)
    push_cast
    rw [abs_le]
    constructor <;> linarith

/-- Rounding changes a number by half the spacing at most. -/
theorem abs_roundEven_sub_le (p : ℕ) (x : K) : |roundEven p x - x| ≤ ulp p x / 2 := by
  have hulp := ulp_pos p x
  have hsplit : |x| = |x| / ulp p x * ulp p x := (div_mul_cancel₀ _ hulp.ne').symm
  have herror : roundEven p x - x = signed (decide (x < 0)) ((halfEven (|x| / ulp p x) - |x| / ulp p x) * ulp p x) := by
    rw [sub_mul, ← signed_sub, ← hsplit, signed_abs]
    rfl
  rw [herror, abs_signed, abs_mul, abs_of_pos hulp]
  calc |(halfEven (|x| / ulp p x) : K) - |x| / ulp p x| * ulp p x ≤ 1 / 2 * ulp p x :=
        mul_le_mul_of_nonneg_right (abs_halfEven_sub_le _) hulp.le
    _ = ulp p x / 2 := by ring

/-- The spacing against the number. -/
theorem ulp_le_mul {p : ℕ} {x : K} (hx : x ≠ 0) : ulp p x ≤ |x| * 2 ^ (1 - (p : ℤ)) := by
  have hsplit : ulp p x = 2 ^ expo x * 2 ^ (1 - (p : ℤ)) := by
    rw [ulp, ← zpow_add₀ two_ne_zero]
    congr 1
    ring
  rw [hsplit]
  exact mul_le_mul_of_nonneg_right (zpow_expo_le hx) (zpow_pos two_pos _).le

section scaled

variable {p : ℕ} {y : K} {e : ℤ} (hlo : 2 ^ (p - 1) ≤ y) (hhi : y < 2 ^ p) (s : Bool)
include hlo

/-- A scaled significand is positive. -/
theorem scaled_pos : 0 < y * 2 ^ e := by
  have hy : 0 < y := lt_of_lt_of_le (pow_pos two_pos (p - 1)) hlo
  exact mul_pos hy (zpow_pos two_pos e)

/-- The magnitude of a scaled significand with a sign. -/
theorem abs_scaled : |signed s (y * 2 ^ e)| = y * 2 ^ e := by
  rw [abs_signed, abs_of_pos (scaled_pos hlo)]

/-- Its sign can be read off the number. -/
theorem decide_scaled : decide (signed s (y * 2 ^ e) < 0) = s := by
  cases s with
  | false => exact decide_eq_false fun h => nomatch (signed_lt_zero (scaled_pos hlo)).mp h
  | true => exact decide_eq_true ((signed_lt_zero (scaled_pos hlo)).mpr rfl)

variable (hp : 0 < p)
include hp hhi

/-- The exponent of a scaled significand. -/
theorem expo_scaled : expo (signed s (y * 2 ^ e)) = e + p - 1 := by
  have htwo : (2 : K) ≠ 0 := two_ne_zero
  have hscale : (0 : K) < 2 ^ e := zpow_pos two_pos e
  refine expo_eq ?_ ?_
  · have hpow : (2 : K) ^ (e + p - 1) = 2 ^ (p - 1) * 2 ^ e := by
      rw [← zpow_natCast, ← zpow_add₀ htwo, Nat.cast_sub hp, Nat.cast_one]
      ring_nf
    rw [abs_scaled hlo, hpow]
    exact mul_le_mul_of_nonneg_right hlo hscale.le
  · have hpow : (2 : K) ^ (e + p - 1 + 1) = 2 ^ p * 2 ^ e := by
      rw [← zpow_natCast, ← zpow_add₀ htwo]
      ring_nf
    rw [abs_scaled hlo, hpow]
    exact mul_lt_mul_of_pos_right hhi hscale

/-- Its ulp is the scale. -/
theorem ulp_scaled : ulp p (signed s (y * 2 ^ e)) = 2 ^ e := by
  rw [ulp, expo_scaled hlo hhi s hp]
  ring_nf

/-- In ulps it is the significand. -/
theorem scaled_div_ulp : |signed s (y * 2 ^ e)| / ulp p (signed s (y * 2 ^ e)) = y := by
  have hscale : (2 : K) ^ e ≠ 0 := zpow_ne_zero e two_ne_zero
  rw [abs_scaled hlo, ulp_scaled hlo hhi s hp, mul_div_cancel_right₀ y hscale]

/-- Cutting a scaled significand cuts it to an integer. -/
theorem truncate_scaled : truncate p (signed s (y * 2 ^ e)) = signed s ((⌊y⌋ : K) * 2 ^ e) := by
  rw [truncate, decide_scaled hlo, scaled_div_ulp hlo hhi s hp, ulp_scaled hlo hhi s hp]

/-- Rounding a scaled significand rounds it to an integer. -/
theorem roundEven_scaled : roundEven p (signed s (y * 2 ^ e)) = signed s ((halfEven y : K) * 2 ^ e) := by
  rw [roundEven, decide_scaled hlo, scaled_div_ulp hlo hhi s hp, ulp_scaled hlo hhi s hp]

end scaled

/-! ## Quotients -/

/-- The integer part of a quotient with a remainder. -/
theorem floor_quotient {n d q r : ℕ} (hr : r < d) (hn : n = q * d + r) : ⌊(n : K) / d⌋ = q := by
  rw [Int.floor_eq_iff]
  have hd : (0 : K) < d := by exact_mod_cast Nat.zero_lt_of_lt hr
  have hcast : (n : K) = q * d + r := by exact_mod_cast hn
  have hrd : (r : K) < d := by exact_mod_cast hr
  have hr0 : (0 : K) ≤ r := Nat.cast_nonneg r
  rw [le_div_iff₀ hd, div_lt_iff₀ hd, hcast, Int.cast_natCast]
  constructor
  · linarith
  · linarith [add_mul (q : K) 1 d]

/-- The fraction of a quotient is its remainder over the divisor. -/
theorem fract_quotient {n d q r : ℕ} (hr : r < d) (hn : n = q * d + r) : Int.fract ((n : K) / d) = r / d := by
  have hd : (d : K) ≠ 0 := by exact_mod_cast (Nat.zero_lt_of_lt hr).ne'
  have hcast : (n : K) = q * d + r := by exact_mod_cast hn
  rw [Int.fract, floor_quotient hr hn, hcast, add_div, mul_div_cancel_right₀ _ hd, Int.cast_natCast, add_sub_cancel_left]

/-- A quotient is rounded by twice its remainder and the parity of its integer part. -/
theorem halfEven_quotient {n d q r : ℕ} (hr : r < d) (hn : n = q * d + r) :
    halfEven ((n : K) / d) = if 2 * r < d ∨ (2 * r = d ∧ q % 2 = 0) then (q : ℤ) else q + 1 := by
  have hd : (0 : K) < d := by exact_mod_cast Nat.zero_lt_of_lt hr
  have hlt : (r : K) / d < 1 / 2 ↔ 2 * r < d := by
    rw [div_lt_div_iff₀ hd two_pos, one_mul, mul_comm, ← Nat.cast_two, ← Nat.cast_mul, Nat.cast_lt]
  have heq : (r : K) / d = 1 / 2 ↔ 2 * r = d := by
    rw [div_eq_div_iff hd.ne' two_ne_zero, one_mul, mul_comm, ← Nat.cast_two, ← Nat.cast_mul, Nat.cast_inj]
  have heven : Even (q : ℤ) ↔ q % 2 = 0 := by
    rw [Int.even_coe_nat, Nat.even_iff]
  rw [halfEven, fract_quotient hr hn, floor_quotient hr hn]
  simp only [hlt, heq, heven]

section quotients

variable {p n d : ℕ} {e : ℤ} (hlo : 2 ^ (p - 1) * d ≤ n) (hhi : n < 2 ^ p * d) (s : Bool) (hp : 0 < p)
include hlo hhi

/-- A quotient of normalised significands has full precision. -/
theorem quotient_bounds : (2 : K) ^ (p - 1) ≤ n / d ∧ (n : K) / d < 2 ^ p := by
  have hpos : 0 < d := Nat.pos_of_ne_zero fun h => by simp only [h, Nat.mul_zero, Nat.not_lt_zero] at hhi
  have hd : (0 : K) < d := by exact_mod_cast hpos
  rw [le_div_iff₀ hd, div_lt_iff₀ hd]
  exact ⟨by exact_mod_cast hlo, by exact_mod_cast hhi⟩

include hp

/-- Cutting a quotient divides. -/
theorem truncate_quotient : truncate p (signed s ((n : K) / d * 2 ^ e)) = signed s (((n / d : ℕ) : K) * 2 ^ e) := by
  have hpos : 0 < d := Nat.pos_of_ne_zero fun h => by simp only [h, Nat.mul_zero, Nat.not_lt_zero] at hhi
  obtain ⟨hlo', hhi'⟩ := quotient_bounds (K := K) hlo hhi
  rw [truncate_scaled hlo' hhi' s hp, floor_quotient (Nat.mod_lt n hpos) (Nat.div_add_mod' n d).symm, Int.cast_natCast]

/-- Rounding a quotient looks at its remainder. -/
theorem roundEven_quotient {q r : ℕ} (hr : r < d) (hn : n = q * d + r) : roundEven p (signed s ((n : K) / d * 2 ^ e)) =
    signed s (((if 2 * r < d ∨ (2 * r = d ∧ q % 2 = 0) then q else q + 1 : ℕ) : K) * 2 ^ e) := by
  obtain ⟨hlo', hhi'⟩ := quotient_bounds (K := K) hlo hhi
  rw [roundEven_scaled hlo' hhi' s hp, halfEven_quotient hr hn]
  split
  · rw [Int.cast_natCast]
  · push_cast
    rfl

end quotients

/-! ## Integers -/

/-- Zero is truncated to itself. -/
theorem truncate_zero (p : ℕ) : truncate p (0 : K) = 0 := by
  rw [truncate, abs_zero, zero_div, Int.floor_zero, Int.cast_zero, zero_mul, signed_eq_zero]

/-- Truncation is odd. -/
theorem truncate_neg (p : ℕ) (x : K) : truncate p (-x) = -truncate p x := by
  have hulp : ulp p (-x) = ulp p x := ulp_signed p true x
  rw [truncate, truncate, abs_neg, hulp]
  rcases lt_trichotomy x 0 with hx | rfl | hx
  · rw [decide_eq_false (not_lt.mpr (neg_pos.mpr hx).le), decide_eq_true hx]
    exact (neg_neg _).symm
  · rw [abs_zero, zero_div, Int.floor_zero, Int.cast_zero, zero_mul, signed_eq_zero.mpr rfl, signed_eq_zero.mpr rfl, neg_zero]
  · rw [decide_eq_true (neg_neg_of_pos hx), decide_eq_false (not_lt.mpr hx.le)]
    rfl

/-- Zero is rounded to itself. -/
theorem roundEven_zero (p : ℕ) : roundEven p (0 : K) = 0 := by
  have hzero : halfEven (0 : K) = 0 := by
    rw [halfEven, Int.fract_zero, if_pos (Or.inl (by norm_num)), Int.floor_zero]
  rw [roundEven, abs_zero, zero_div, hzero, Int.cast_zero, zero_mul, signed_eq_zero]

/-- The bits of a number below its `p` highest ones are less than half a unit of the last one kept, or half of it and that one is even. -/
def RoundsDown (p n : ℕ) : Prop :=
  2 * (n % 2 ^ (n.size - p)) < 2 ^ (n.size - p) ∨ (2 * (n % 2 ^ (n.size - p)) = 2 ^ (n.size - p) ∧ n / 2 ^ (n.size - p) % 2 = 0)

instance (p n : ℕ) : Decidable (RoundsDown p n) := inferInstanceAs (Decidable (_ ∨ _))

/-- A number, scaled to `p` digits. -/
theorem cast_eq_scaled (p n : ℕ) :
    (n : K) = ((n * 2 ^ (p - n.size) : ℕ) : K) / (2 ^ (n.size - p) : ℕ) * 2 ^ (((n.size - p : ℕ) : ℤ) - (p - n.size : ℕ)) := by
  have hup : (2 : K) ^ (p - n.size) ≠ 0 := pow_ne_zero _ two_ne_zero
  have hdown : (2 : K) ^ (n.size - p) ≠ 0 := pow_ne_zero _ two_ne_zero
  rw [zpow_sub₀ two_ne_zero, zpow_natCast, zpow_natCast, Nat.cast_mul, Nat.cast_pow, Nat.cast_pow, Nat.cast_two]
  field_simp

/-- Cutting an integer rounds it if and only if less than half a unit is cut off, or half of one behind an even digit. -/
theorem truncate_eq_roundEven_iff {p : ℕ} (hp : 0 < p) (s : Bool) (n : ℕ) :
    truncate p (signed s (n : K)) = roundEven p (signed s (n : K)) ↔ RoundsDown p n := by
  rcases Nat.eq_zero_or_pos n with rfl | hpos
  · have hzero : signed s ((0 : ℕ) : K) = 0 := by rw [Nat.cast_zero, signed_eq_zero]
    have hdown : RoundsDown p 0 := Or.inl (by rw [Nat.size_zero, Nat.zero_sub, Nat.zero_mod]; exact Nat.one_pos)
    rw [hzero, truncate_zero, roundEven_zero]
    exact iff_of_true rfl hdown
  · have hsize : 0 < n.size := Nat.size_pos.mpr hpos
    have hle : 2 ^ (n.size - 1) ≤ n := Nat.lt_size.mp (Nat.sub_lt hsize Nat.one_pos)
    have hlo : 2 ^ (p - 1) * 2 ^ (n.size - p) ≤ n * 2 ^ (p - n.size) := by
      rw [← Nat.pow_add, show p - 1 + (n.size - p) = n.size - 1 + (p - n.size) by omega, Nat.pow_add]
      exact Nat.mul_le_mul_right _ hle
    have hhi : n * 2 ^ (p - n.size) < 2 ^ p * 2 ^ (n.size - p) := by
      rw [← Nat.pow_add, show p + (n.size - p) = n.size + (p - n.size) by omega, Nat.pow_add]
      exact Nat.mul_lt_mul_of_pos_right (Nat.lt_size_self n) (Nat.two_pow_pos _)
    have hdigits : RoundsDown p n ↔ 2 * (n * 2 ^ (p - n.size) % 2 ^ (n.size - p)) < 2 ^ (n.size - p) ∨
        (2 * (n * 2 ^ (p - n.size) % 2 ^ (n.size - p)) = 2 ^ (n.size - p) ∧ n * 2 ^ (p - n.size) / 2 ^ (n.size - p) % 2 = 0) := by
      rcases Nat.le_total n.size p with h | h
      · -- no digit is dropped
        have hunit : 2 ^ (n.size - p) = 1 := by rw [Nat.sub_eq_zero_of_le h, Nat.pow_zero]
        rw [RoundsDown, hunit, Nat.mod_one, Nat.mod_one]
        exact iff_of_true (Or.inl Nat.one_pos) (Or.inl Nat.one_pos)
      · rw [Nat.sub_eq_zero_of_le h, Nat.pow_zero, Nat.mul_one, RoundsDown]
    have hscale : (2 : K) ^ (((n.size - p : ℕ) : ℤ) - (p - n.size : ℕ)) ≠ 0 := zpow_ne_zero _ two_ne_zero
    have hinj : ∀ x y : K, signed s x = signed s y ↔ x = y := by
      intro x y
      rw [← sub_eq_zero, signed_sub, signed_eq_zero, sub_eq_zero]
    rw [cast_eq_scaled p n, truncate_quotient hlo hhi s hp,
      roundEven_quotient hlo hhi s hp (Nat.mod_lt _ (Nat.two_pow_pos _)) (Nat.div_add_mod' _ _).symm, hinj, mul_left_inj' hscale,
      Nat.cast_inj, hdigits]
    split
    · exact iff_of_true rfl ‹_›
    · exact iff_of_false (Nat.ne_of_lt (Nat.lt_succ_self _)) ‹_›

end CronoVM.Precision
