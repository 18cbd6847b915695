import CronoVM.Lemmas.Float64

/-!
# The long division

The loop divides one bit at a time: what it has of the quotient and its remainder give the dividend back. The rounding that follows looks
at the last bit of the quotient and at the remainder.
-/

namespace CronoVM

open CvmF64 Precision TwoWord

/-! ## The loop -/

/-- The remainder so far. -/
def DivState.rem (d : DivState) : Nat := num d.rHi d.rLo

/-- The quotient so far. -/
def DivState.quo (d : DivState) : Nat := num d.qHi d.qLo

/-- After `n` bits: the quotient and the remainder of the dividend, shifted by as many bits. -/
structure DividesTo (a b n : Nat) (d : DivState) : Prop where
  rem_lt : d.rem < b
  quo_lo : 2 ^ n ≤ d.quo
  quo_hi : d.quo < 2 ^ (n + 1)
  eq : a * 2 ^ n = d.quo * b + d.rem

/-- The lowest bit of a shifted quotient is free. -/
theorem num_setBit (hi lo : Word) : num hi ((lo <<< 1) ||| 1#32) = num hi (lo <<< 1) + 1 := by
  have hor : (lo <<< 1 ||| 1#32).toNat = (lo <<< 1).toNat + 1 := by
    rw [BitVec.toNat_or, BitVec.toNat_shiftLeft, Nat.shiftLeft_eq]
    have heven : lo.toNat * 2 ^ 1 % 2 ^ 32 = (lo.toNat % 2 ^ 31) <<< 1 := by
      rw [Nat.shiftLeft_eq]
      omega
    rw [heven, ← Nat.shiftLeft_add_eq_or_of_lt (by decide)]
    rfl
  rw [num, hor, num, Nat.add_assoc]

/-- One bit of the quotient. -/
theorem DividesTo.step {a n : Nat} {bh bl : Word} {d : DivState} (hb : num bh bl < 2 ^ 62) (hn : n < 62) (h : DividesTo a (num bh bl) n d) :
    DividesTo a (num bh bl) (n + 1) (cvmDDivStep bh bl d) := by
  obtain ⟨hrem, hlo, hhi, heq⟩ := h
  have hpow : 2 ^ (n + 1) ≤ 2 ^ 62 := Nat.pow_le_pow_right Nat.two_pos hn
  have hrem2 : num ((d.rHi <<< 1) ||| (d.rLo >>> 31)) (d.rLo <<< 1) = 2 * d.rem := num_double (Nat.lt_trans hrem (by omega))
  have hquo2 : num ((d.qHi <<< 1) ||| (d.qLo >>> 31)) (d.qLo <<< 1) = 2 * d.quo := num_double (Nat.lt_trans hhi (by omega))
  have heq2 : a * 2 ^ (n + 1) = 2 * (d.quo * num bh bl) + 2 * d.rem := by
    rw [Nat.pow_succ, ← Nat.mul_assoc, heq]
    omega
  unfold cvmDDivStep
  dsimp only
  rw [decide_num_le]
  by_cases hge : num bh bl ≤ num ((d.rHi <<< 1) ||| (d.rLo >>> 31)) (d.rLo <<< 1)
  · rw [if_pos (decide_eq_true hge)]
    have hrem' := num_sub hge
    have hquo' := num_setBit ((d.qHi <<< 1) ||| (d.qLo >>> 31)) d.qLo
    rw [hrem2] at hrem' hge
    rw [hquo2] at hquo'
    constructor
    · exact hrem'.trans_lt (by omega)
    · exact Nat.le_trans (by omega) hquo'.ge
    · exact hquo'.trans_lt (by omega)
    · refine heq2.trans (Eq.trans ?_ (congrArg₂ (fun q r => q * num bh bl + r) hquo' hrem').symm)
      rw [Nat.add_mul, Nat.mul_assoc]
      omega
  · rw [if_neg (by simpa only [decide_eq_true_eq] using hge)]
    rw [hrem2] at hge
    constructor
    · exact hrem2.trans_lt (by omega)
    · exact Nat.le_trans (by omega) hquo2.ge
    · exact hquo2.trans_lt (by omega)
    · refine heq2.trans (Eq.trans ?_ (congrArg₂ (fun q r => q * num bh bl + r) hquo2 hrem2).symm)
      rw [Nat.mul_assoc]

/-- The bits of the quotient up to any turn. -/
theorem DividesTo.loop {a : Nat} {bh bl : Word} {d : DivState} (hb : num bh bl < 2 ^ 62) (h : DividesTo a (num bh bl) 0 d) :
    ∀ n ≤ 62, DividesTo a (num bh bl) n (cvmDDivLoop bh bl d n) := by
  intro n hn
  induction n with
  | zero => exact h
  | succ n ih => exact (ih (by omega)).step hb (by omega)

/-- The leading one, before the first turn. -/
theorem dividesTo_seed {ah al bh bl : Word} (hle : num bh bl ≤ num ah al) (hlt : num ah al < 2 * num bh bl) :
    DividesTo (num ah al) (num bh bl) 0 (cvmDDivSeed ah al bh bl) := by
  have hrem : (cvmDDivSeed ah al bh bl).rem = num ah al - num bh bl := num_sub hle
  have hquo : (cvmDDivSeed ah al bh bl).quo = 1 := rfl
  constructor
  · rw [hrem]
    omega
  · rw [hquo]
    exact Nat.le_refl 1
  · rw [hquo]
    decide
  · rw [hrem, hquo]
    omega

/-! ## The dividend -/

/-- The dividend is doubled if it is below the divisor. -/
theorem cvmDDivPreshift_num {ah al bh bl : Word} (ha : num ah al < 2 ^ 53) (hhalf : num bh bl < 2 * num ah al)
    (hdouble : num ah al < 2 * num bh bl) :
    ∃ k : Nat, (cvmDDivPreshift ah al bh bl).expAdjust = -(k : Int) ∧
      num (cvmDDivPreshift ah al bh bl).aMHi (cvmDDivPreshift ah al bh bl).aMLo = num ah al * 2 ^ k ∧
      num bh bl ≤ num ah al * 2 ^ k ∧ num ah al * 2 ^ k < 2 * num bh bl := by
  unfold cvmDDivPreshift
  dsimp only
  rw [decide_num_lt]
  by_cases hlt : num ah al < num bh bl
  · rw [if_pos (decide_eq_true hlt)]
    have hroom : num ah al < 2 ^ 63 := by omega
    have hnum := num_double hroom
    exact ⟨1, rfl, by rw [Nat.pow_one, Nat.mul_comm]; exact hnum, by omega, by omega⟩
  · rw [if_neg (by simpa only [decide_eq_true_eq] using hlt)]
    exact ⟨0, rfl, by rw [Nat.pow_zero, Nat.mul_one], by omega, by omega⟩

/-! ## Rounding -/

theorem num_mod_two (hi lo : Word) : (lo &&& 1#32 ≠ 0#32) ↔ num hi lo % 2 = 1 := by
  have hbit : (lo &&& 1#32).toNat = lo.toNat % 2 ^ 1 := toNat_and_mask lo 1 (by decide)
  have hzero : lo &&& 1#32 = 0#32 ↔ (lo &&& 1#32).toNat = 0 := ⟨congrArg BitVec.toNat, fun h => BitVec.eq_of_toNat_eq h⟩
  rw [Ne, hzero, hbit, num]
  omega

theorem or_ne_zero (hi lo : Word) : (lo ||| hi ≠ 0#32) ↔ num hi lo ≠ 0 := by
  have hzero : lo ||| hi = 0#32 ↔ lo = 0#32 ∧ hi = 0#32 := BitVec.or_eq_zero_iff
  have hlo : lo = 0#32 ↔ lo.toNat = 0 := ⟨congrArg BitVec.toNat, fun h => BitVec.eq_of_toNat_eq h⟩
  have hhi : hi = 0#32 ↔ hi.toNat = 0 := ⟨congrArg BitVec.toNat, fun h => BitVec.eq_of_toNat_eq h⟩
  rw [Ne, hzero, hlo, hhi, num]
  omega

/-- An increment with its carry. -/
theorem num_succ {hi lo : Word} (h : num hi lo + 1 < 2 ^ 64) : num (hi + (if lo + 1#32 = 0#32 then 1#32 else 0#32)) (lo + 1#32) = num hi lo + 1 := by
  have hlo := lo.isLt
  have hsum : (lo + 1#32).toNat = (lo.toNat + 1) % 2 ^ 32 := BitVec.toNat_add _ _
  have hzero : lo + 1#32 = 0#32 ↔ (lo + 1#32).toNat = 0 := ⟨congrArg BitVec.toNat, fun h => BitVec.eq_of_toNat_eq h⟩
  unfold num at h ⊢
  by_cases hcarry : lo + 1#32 = 0#32
  · have hnat := hzero.mp hcarry
    have hhi : (hi + 1#32).toNat = hi.toNat + 1 := toNat_add_of_lt (by change hi.toNat + 1 < 2 ^ 32; omega)
    rw [if_pos hcarry, hhi]
    omega
  · have hnat := mt hzero.mpr hcarry
    rw [if_neg hcarry, BitVec.add_zero]
    omega

/-- Only the lowest bit is left after a shift to the highest. -/
theorem and_one_shiftLeft (x : Word) : (x &&& 1#32) <<< 31 = x <<< 31 := by
  apply BitVec.eq_of_toNat_eq
  have hbit : (x &&& 1#32).toNat = x.toNat % 2 ^ 1 := toNat_and_mask x 1 (by decide)
  rw [BitVec.toNat_shiftLeft, BitVec.toNat_shiftLeft, hbit, Nat.shiftLeft_eq, Nat.shiftLeft_eq]
  omega

/-- A rounded quotient: an integer of 53 bits, or a power of two that is halved. -/
theorem cvmDDivRoundRne_num {qh ql : Word} (rh rl : Word) (e : Int) (hlo : 2 ^ 53 ≤ num qh ql) (hhi : num qh ql < 2 ^ 54) :
    ∃ k : Nat, (cvmDDivRoundRne qh ql e rl rh).rExpSigned = e + k ∧
      num (cvmDDivRoundRne qh ql e rl rh).qHi (cvmDDivRoundRne qh ql e rl rh).qLo * 2 ^ k =
        (if num qh ql % 2 = 1 ∧ (num rh rl ≠ 0 ∨ num qh ql / 2 % 2 = 1) then num qh ql / 2 + 1 else num qh ql / 2) ∧
      2 ^ 52 ≤ num (cvmDDivRoundRne qh ql e rl rh).qHi (cvmDDivRoundRne qh ql e rl rh).qLo ∧
      num (cvmDDivRoundRne qh ql e rl rh).qHi (cvmDDivRoundRne qh ql e rl rh).qLo < 2 ^ 53 := by
  have hhalf := num_half qh ql
  have hguard := num_mod_two qh ql
  have hlsb := num_mod_two (qh >>> 1) ((ql >>> 1) ||| (qh <<< 31))
  have hsticky : (if rl ||| rh ≠ 0#32 then 1#32 else 0#32 : Word) ≠ 0#32 ↔ num rh rl ≠ 0 := by
    rw [← or_ne_zero]
    by_cases hor : rl ||| rh ≠ 0#32
    · rw [if_pos hor]
      exact iff_of_true (by decide) hor
    · rw [if_neg hor]
      exact iff_of_false (by decide) hor
  rw [hhalf] at hlsb
  unfold cvmDDivRoundRne
  dsimp only
  generalize qh >>> 1 = h, (ql >>> 1) ||| (qh <<< 31) = l at *
  have hup : (ql &&& 1#32 ≠ 0#32 ∧ ((if rl ||| rh ≠ 0#32 then 1#32 else 0#32 : Word) ≠ 0#32 ∨ l &&& 1#32 ≠ 0#32)) ↔
      (num qh ql % 2 = 1 ∧ (num rh rl ≠ 0 ∨ num qh ql / 2 % 2 = 1)) := by
    rw [hguard, hsticky, hlsb]
  by_cases hround : num qh ql % 2 = 1 ∧ (num rh rl ≠ 0 ∨ num qh ql / 2 % 2 = 1)
  · rw [if_pos (hup.mpr hround), if_pos hround]
    have hroom : num h l + 1 < 2 ^ 64 := by omega
    have hsucc := num_succ hroom
    generalize l + 1#32 = l' at *
    generalize h + (if l' = 0#32 then 1#32 else 0#32) = h' at *
    have hbit := and_bit53 h' l'
    by_cases hover : h' &&& 0x200000#32 ≠ 0#32
    · have hset := hbit.mp hover
      have hdone := num_half h' l'
      rw [if_pos hover, and_one_shiftLeft]
      dsimp only
      exact ⟨1, rfl, by omega, by omega, by omega⟩
    · have hclear := mt hbit.mpr hover
      rw [if_neg hover]
      dsimp only
      exact ⟨0, (Int.add_zero e).symm, by omega, by omega, by omega⟩
  · rw [if_neg (mt hup.mp hround), if_neg hround]
    dsimp only
    exact ⟨0, (Int.add_zero e).symm, by omega, by omega, by omega⟩

/-- The guard bit and the remainder behind it tell how a quotient is rounded. -/
theorem halfEven_of_guard {n b q r : Nat} (hr : r < b) (h : 2 * n = q * b + r) :
    ∃ r', r' < b ∧ n = q / 2 * b + r' ∧ (if 2 * r' < b ∨ (2 * r' = b ∧ q / 2 % 2 = 0) then q / 2 else q / 2 + 1) =
      if q % 2 = 1 ∧ (r ≠ 0 ∨ q / 2 % 2 = 1) then q / 2 + 1 else q / 2 := by
  have hsplit : q * b = 2 * (q / 2 * b) + q % 2 * b := by
    rw [← Nat.mul_assoc, ← Nat.add_mul, Nat.div_add_mod]
  rcases Nat.mod_two_eq_zero_or_one q with hguard | hguard
  · rw [hguard, Nat.zero_mul, Nat.add_zero] at hsplit
    refine ⟨r / 2, by omega, by omega, ?_⟩
    rw [if_pos (Or.inl (by omega)), if_neg (by omega)]
  · rw [hguard, Nat.one_mul] at hsplit
    refine ⟨(b + r) / 2, by omega, by omega, ?_⟩
    by_cases hup : q % 2 = 1 ∧ (r ≠ 0 ∨ q / 2 % 2 = 1)
    · rw [if_neg (by omega), if_pos hup]
    · rw [if_pos (by omega), if_neg hup]

/-! ## Quotients of doubles -/

/-- The dividend of a division. -/
def CvmF64.dividend (a b : CvmF64) : Dividend := cvmDDivPreshift a.full a.lo b.full b.lo

/-- The state of a division after a number of turns. -/
def CvmF64.divState (a b : CvmF64) (n : Nat) : DivState :=
  cvmDDivLoop b.full b.lo (cvmDDivSeed (a.dividend b).aMHi (a.dividend b).aMLo b.full b.lo) n

theorem cvmDDivFinite_eq (s : Word) (a b : CvmF64) : cvmDDivFinite s a b =
    cvmDDivResult s (cvmDDivRoundRne (a.divState b 53).qHi (a.divState b 53).qLo
      ((cvmDExp a).toInt - (cvmDExp b).toInt + 1023 + (a.dividend b).expAdjust) (a.divState b 53).rLo (a.divState b 53).rHi) := rfl

/-- The dividend of two significands is the first one or twice it. -/
theorem dividend_num (a b : CvmF64) : ∃ k : Nat, (a.dividend b).expAdjust = -(k : Int) ∧
    num (a.dividend b).aMHi (a.dividend b).aMLo = a.sig * 2 ^ k ∧ b.sig ≤ a.sig * 2 ^ k ∧ a.sig * 2 ^ k < 2 * b.sig := by
  have halo := a.sig_lo
  have hahi := a.sig_hi
  have hblo := b.sig_lo
  have hbhi := b.sig_hi
  exact cvmDDivPreshift_num hahi (show b.sig < 2 * a.sig by omega) (show a.sig < 2 * b.sig by omega)

/-- Every turn of a division. -/
theorem dividesTo_divState (a b : CvmF64) {n : Nat} (hn : n ≤ 53) :
    DividesTo (num (a.dividend b).aMHi (a.dividend b).aMLo) b.sig n (a.divState b n) := by
  obtain ⟨k, -, hnum, hle, hlt⟩ := dividend_num a b
  have hseed : DividesTo (num (a.dividend b).aMHi (a.dividend b).aMLo) b.sig 0
      (cvmDDivSeed (a.dividend b).aMHi (a.dividend b).aMLo b.full b.lo) := dividesTo_seed (hnum ▸ hle) (hnum ▸ hlt)
  have hsmall : num b.full b.lo < 2 ^ 62 := Nat.lt_trans b.sig_hi (by decide)
  exact hseed.loop hsmall n (by omega)

/-- A quotient as a scaled quotient of two integers. -/
theorem val_div (a b : CvmF64) (k : Nat) : a.val / b.val = signed (a.sign ^^ b.sign)
    (((a.sig * 2 ^ k * 2 ^ 52 : ℕ) : ℚ) / b.sig * 2 ^ (((a.exp : ℤ) - b.exp + 1023 + -(k : ℤ)) - 1075)) := by
  have hpow : (2 : ℚ) ^ ((a.exp : ℤ) - 1075) / 2 ^ ((b.exp : ℤ) - 1075) =
      (2 ^ k * 2 ^ 52 : ℕ) * 2 ^ (((a.exp : ℤ) - b.exp + 1023 + -(k : ℤ)) - 1075) := by
    rw [Nat.cast_mul, Nat.cast_pow, Nat.cast_pow, Nat.cast_two, ← zpow_natCast, ← zpow_natCast, ← zpow_sub₀ two_ne_zero,
      ← zpow_add₀ two_ne_zero, ← zpow_add₀ two_ne_zero]
    congr 1
    push_cast
    ring
  rw [val, val, signed_div, mul_div_mul_comm, hpow]
  congr 1
  push_cast
  ring

/-- A finite quotient is rounded to 53 significant bits, ties to even. -/
theorem encodes_cvmDDivFinite (a b : CvmF64) :
    Encodes (a.sign ^^ b.sign) (roundEven 53 (a.val / b.val)) (cvmDDivFinite (cvmDSign a ^^^ cvmDSign b) a b) := by
  obtain ⟨k, hexp, hnum, hle, hlt⟩ := dividend_num a b
  obtain ⟨hrem, hquo, hquo', heq⟩ := dividesTo_divState a b (Nat.le_refl 53)
  rw [hnum] at heq
  have hhalf : 2 * (a.sig * 2 ^ k * 2 ^ 52) = (a.divState b 53).quo * b.sig + (a.divState b 53).rem := by
    rw [← heq]
    omega
  obtain ⟨r, hr, hn, hround⟩ := halfEven_of_guard hrem hhalf
  have hlow : 2 ^ (53 - 1) * b.sig ≤ a.sig * 2 ^ k * 2 ^ 52 := by omega
  have hhigh : a.sig * 2 ^ k * 2 ^ 52 < 2 ^ 53 * b.sig := by omega
  rw [val_div a b k, roundEven_quotient hlow hhigh _ (by decide) hr hn, hround, cvmDDivFinite_eq, hexp, a.toInt_exp, b.toInt_exp]
  obtain ⟨j, hexp', hsig, hsig52, hsig53⟩ := cvmDDivRoundRne_num (a.divState b 53).rHi (a.divState b 53).rLo
    ((a.exp : ℤ) - b.exp + 1023 + -(k : ℤ)) hquo hquo'
  rw [DivState.rem, DivState.quo, ← hsig, ← sign_xor]
  have hresult := encodes_result (toNat_sign_xor a b) (e := (a.exp : ℤ) - b.exp + 1023 + -(k : ℤ) + j) rfl hsig52 hsig53
  have hscale : ∀ m : Nat, ((m * 2 ^ j : ℕ) : ℚ) * 2 ^ (((a.exp : ℤ) - b.exp + 1023 + -(k : ℤ)) - 1075) =
      m * 2 ^ (((a.exp : ℤ) - b.exp + 1023 + -(k : ℤ) + j) - 1075) := by
    intro m
    rw [Nat.cast_mul, Nat.cast_pow, Nat.cast_two, mul_assoc, ← zpow_natCast, ← zpow_add₀ two_ne_zero]
    congr 2
    ring
  rw [← hexp'] at hresult
  rw [hscale, ← hexp']
  exact hresult

/-- The quotient of two normal doubles is the exact quotient, rounded to 53 significant bits, ties to even. -/
theorem encodes_cvmDDiv {a b : CvmF64} (ha : a.IsNormal) (hb : b.IsNormal) :
    Encodes (a.sign ^^ b.sign) (roundEven 53 (a.val / b.val)) (cvmDDiv a b) := by
  have hfinite : cvmDDiv a b = cvmDDivFinite (cvmDSign a ^^^ cvmDSign b) a b := by
    rw [cvmDDiv, ha.not_nan, hb.not_nan, ha.not_inf, hb.not_inf, ha.not_zero, hb.not_zero]
    rfl
  rw [hfinite]
  exact encodes_cvmDDivFinite a b

end CronoVM
