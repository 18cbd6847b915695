import CronoVM.Lib.LongDivision
import CronoVM.Lib.TwoWord
import CronoVM.Runtime.Int64

/-!
# What the words of the runtime's integers say

Each helper of `cvm_int64.h` computes the operation of its name on the 64-bit numbers of its words, and the loop of the division keeps
the quotient and the remainder of the bits it has taken.
-/

namespace CronoVM

open TwoWord

namespace CvmI64

/-- The number of two words. -/
def bits (x : CvmI64) : BitVec 64 := x.hi ++ x.lo

/-- The bits of a pair are its upper word and its lower word. -/
theorem bits_mk (lo hi : Word) : (CvmI64.mk lo hi).bits = hi ++ lo := rfl

/-- The zero of the runtime. -/
theorem bits_zero : cvmI64Zero.bits = 0#64 := rfl

end CvmI64

open CvmI64

section arith

variable (a b x : CvmI64)

/-! ## Negation, differences and comparisons -/

/-- The carry of an increment. -/
theorem carry_one (x : Word) : carry x 1#32 = if x + 1#32 = 0#32 then 1#32 else 0#32 := by
  have hx := x.isLt
  have hsum : (x + 1#32).toNat = (x.toNat + 1) % 2 ^ 32 := BitVec.toNat_add x 1#32
  refine if_congr ?_ rfl rfl
  rw [BitVec.lt_def, ← BitVec.toNat_inj, BitVec.toNat_zero, hsum]
  omega

/-- The negation of the runtime, on 64 bits. -/
theorem bits_neg : (cvmI64Neg x).bits = -x.bits := by
  have hnot : ~~~x.bits = ~~~x.hi ++ ~~~x.lo := BitVec.not_append
  have hsum := add_append (~~~x.hi) (~~~x.lo) 0#32 1#32
  rw [carry_one, BitVec.add_zero] at hsum
  rw [BitVec.neg_eq_not_add, hnot]
  exact hsum.symm

/-- The subtraction of the runtime, on 64 bits. -/
theorem bits_sub : (cvmI64Sub a b).bits = a.bits - b.bits := (sub_append a.hi a.lo b.hi b.lo).symm

/-- Comparing the high words first decides the order of the numbers. -/
theorem cvmU64Le_eq : cvmU64Le a b = decide (b.bits.toNat ≥ a.bits.toNat) := by
  have hule : a.bits.ule b.bits = decide (a.bits.toNat ≤ b.bits.toNat) := rfl
  have happend := ule_append a.hi a.lo b.hi b.lo
  change _ = decide (a.bits.toNat ≤ b.bits.toNat)
  rw [← hule]
  refine Eq.trans ?_ happend.symm
  unfold cvmU64Le
  by_cases heq : a.hi = b.hi
  · rw [if_neg (not_not.mpr heq), decide_eq_true heq, Bool.true_and, heq]
    simp only [BitVec.ult, Nat.lt_irrefl, decide_false, Bool.false_or]
    rfl
  · rw [if_pos heq, decide_eq_false heq, Bool.false_and, Bool.or_false]
    rfl

/-! ## Shifts -/

/-- The mask of a shift amount. -/
theorem toNat_and_63 (n : Word) : (n &&& 63#32).toNat = n.toNat % 64 := by
  have h63 : (63#32).toNat = 2 ^ 6 - 1 := rfl
  rw [BitVec.toNat_and, h63, Nat.and_two_pow_sub_one_eq_mod]

/-- A small amount stays under the mask of a word. -/
theorem toNat_and_31 {n : Word} (h : n.toNat < 32) : (n &&& 31#32).toNat = n.toNat := by
  have h31 : (31#32).toNat = 2 ^ 5 - 1 := rfl
  rw [BitVec.toNat_and, h31, Nat.and_two_pow_sub_one_eq_mod, Nat.mod_eq_of_lt h]

/-- A shift of a word by a small amount. -/
theorem shlU32_eq (x : Word) {n : Word} (h : n.toNat < 32) : shlU32 x n = x <<< n.toNat := by
  rw [shlU32, BitVec.shiftLeft_eq', toNat_and_31 h]

/-- The same to the right. -/
theorem shrU32_eq (x : Word) {n : Word} (h : n.toNat < 32) : shrU32 x n = x >>> n.toNat := by
  rw [shrU32, BitVec.ushiftRight_eq', toNat_and_31 h]

/-- The same with the sign. -/
theorem sarI32_eq (x : Word) {n : Word} (h : n.toNat < 32) : sarI32 x n = x.sshiftRight n.toNat := by
  rw [sarI32, BitVec.sshiftRight', toNat_and_31 h]

/-- The cases of a shift: not at all, by 32 or more, or by less; no word is shifted by its whole width. -/
theorem shift_cases (n : Word) : n = 0#32 ∨ (n ≠ 0#32 ∧ n ≥ 32#32 ∧ 32 ≤ n.toNat ∧ (n - 32#32).toNat = n.toNat - 32) ∨
    (n ≠ 0#32 ∧ ¬n ≥ 32#32 ∧ 0 < n.toNat ∧ n.toNat < 32 ∧ (32#32 - n).toNat = 32 - n.toNat) := by
  have h32 : (32#32).toNat = 32 := rfl
  by_cases hzero : n = 0#32
  · exact Or.inl hzero
  have hpos : 0 < n.toNat := Nat.pos_of_ne_zero fun h => hzero (BitVec.eq_of_toNat_eq h)
  by_cases hge : n ≥ 32#32
  · have hle : 32 ≤ n.toNat := BitVec.le_def.mp hge
    exact Or.inr (Or.inl ⟨hzero, hge, hle, BitVec.toNat_sub_of_le hge⟩)
  · have hlt : n.toNat < 32 := BitVec.lt_def.mp (BitVec.not_le.mp hge)
    exact Or.inr (Or.inr ⟨hzero, hge, hpos, hlt, BitVec.toNat_sub_of_le (BitVec.le_of_lt (BitVec.not_le.mp hge))⟩)

/-- The left shift of the runtime takes its amount modulo 64. -/
theorem bits_shl (n : Word) : (cvmU64Shl x n).bits = x.bits <<< (n.toNat % 64) := by
  have hlt : (n &&& 63#32).toNat < 64 := by
    rw [toNat_and_63]
    exact Nat.mod_lt _ (by decide)
  unfold cvmU64Shl
  rw [← toNat_and_63]
  generalize n &&& 63#32 = k at hlt ⊢
  rcases shift_cases k with rfl | ⟨hne, hge, hle, hsub⟩ | ⟨hne, hge, hpos, hsmall, hsub⟩
  · exact (BitVec.shiftLeft_zero _).symm
  · dsimp only
    rw [if_neg hne, if_pos hge, shlU32_eq _ (by omega), hsub]
    exact (shiftLeft_append_of_le x.hi x.lo hle).symm
  · dsimp only
    rw [if_neg hne, if_neg hge, shlU32_eq _ hsmall, shlU32_eq _ hsmall, shrU32_eq _ (by omega), hsub]
    exact (shiftLeft_append_of_lt x.hi x.lo hsmall).symm

/-- So does the logical right shift. -/
theorem bits_shr (n : Word) : (cvmU64Shr x n).bits = x.bits >>> (n.toNat % 64) := by
  have hlt : (n &&& 63#32).toNat < 64 := by
    rw [toNat_and_63]
    exact Nat.mod_lt _ (by decide)
  unfold cvmU64Shr
  rw [← toNat_and_63]
  generalize n &&& 63#32 = k at hlt ⊢
  rcases shift_cases k with rfl | ⟨hne, hge, hle, hsub⟩ | ⟨hne, hge, hpos, hsmall, hsub⟩
  · exact (BitVec.ushiftRight_zero _).symm
  · dsimp only
    rw [if_neg hne, if_pos hge, shrU32_eq _ (by omega), hsub]
    exact (ushiftRight_append_of_le x.hi x.lo hle).symm
  · dsimp only
    rw [if_neg hne, if_neg hge, shrU32_eq _ hsmall, shrU32_eq _ hsmall, shlU32_eq _ (by omega), hsub]
    exact (ushiftRight_append_of_lt x.hi x.lo hsmall).symm

/-- So does the arithmetic one. -/
theorem bits_sar (n : Word) : (cvmI64Sar x n).bits = x.bits.sshiftRight (n.toNat % 64) := by
  have hlt : (n &&& 63#32).toNat < 64 := by
    rw [toNat_and_63]
    exact Nat.mod_lt _ (by decide)
  unfold cvmI64Sar
  rw [← toNat_and_63]
  generalize n &&& 63#32 = k at hlt ⊢
  rcases shift_cases k with rfl | ⟨hne, hge, hle, hsub⟩ | ⟨hne, hge, hpos, hsmall, hsub⟩
  · exact (BitVec.sshiftRight_zero).symm
  · dsimp only
    rw [if_neg hne, if_pos hge, sarI32_eq _ (by omega), sarI32_eq _ (by decide), hsub]
    exact (sshiftRight_append_of_le x.hi x.lo (by decide) hle).symm
  · dsimp only
    rw [if_neg hne, if_neg hge, sarI32_eq _ hsmall, shrU32_eq _ hsmall, shlU32_eq _ (by omega), hsub]
    exact (sshiftRight_append_of_lt x.hi x.lo hsmall).symm

end arith

/-! ## The division loop -/

section division

variable (a b : CvmI64)

/-- Bit `i` of the dividend, as the loop reads it. -/
theorem toNat_bit {i : Nat} (hi : i < 64) :
    (if i ≥ 32 then (a.hi >>> (i - 32)) &&& 1#32 else (a.lo >>> i) &&& 1#32).toNat = a.bits.toNat / 2 ^ i % 2 := by
  have hone : ∀ x : Word, (x &&& 1#32).toNat = x.toNat % 2 := by
    intro x
    have h1 : (1#32).toNat = 2 ^ 1 - 1 := rfl
    rw [BitVec.toNat_and, h1, Nat.and_two_pow_sub_one_eq_mod]
  have happend : a.bits.toNat = 2 ^ 32 * a.hi.toNat + a.lo.toNat := toNat_append a.hi a.lo
  by_cases hge : i ≥ 32
  · obtain ⟨k, rfl⟩ := Nat.exists_eq_add_of_le hge
    rw [if_pos hge, hone, BitVec.toNat_ushiftRight, Nat.shiftRight_eq_div_pow, Nat.add_sub_cancel_left, happend, Nat.pow_add,
      ← Nat.div_div_eq_div_mul, Nat.mul_add_div (Nat.two_pow_pos 32), Nat.div_eq_of_lt a.lo.isLt, Nat.add_zero]
  · obtain ⟨k, hk⟩ := Nat.exists_eq_add_of_lt (Nat.lt_of_not_le hge)
    have hpow : 2 ^ 32 = 2 ^ i * 2 ^ k * 2 := by
      conv_lhs => rw [hk]
      rw [Nat.pow_succ, Nat.pow_add]
    have hsplit : 2 ^ 32 * a.hi.toNat + a.lo.toNat = 2 ^ i * (2 * (2 ^ k * a.hi.toNat)) + a.lo.toNat := by
      rw [hpow]
      ring
    rw [if_neg hge, hone, BitVec.toNat_ushiftRight, Nat.shiftRight_eq_div_pow, happend, hsplit, Nat.mul_add_div (Nat.two_pow_pos i),
      Nat.mul_add_mod]

/-- A number below 2⁶³, doubled, with a bit in the place that has become free. -/
theorem toNat_shl_bit (r : CvmI64) {bit : Word} (hr : r.bits.toNat < 2 ^ 63) (hbit : bit.toNat < 2) :
    ({ cvmU64Shl r 1#32 with lo := (cvmU64Shl r 1#32).lo ||| bit } : CvmI64).bits.toNat = 2 * r.bits.toNat + bit.toNat := by
  have hlo : (cvmU64Shl r 1#32).lo = r.lo <<< 1 := rfl
  have hshl : (cvmU64Shl r 1#32).bits.toNat = 2 * r.bits.toNat := by
    have hone : (1#32 : Word).toNat % 64 = 1 := rfl
    rw [bits_shl, hone, BitVec.toNat_shiftLeft, Nat.shiftLeft_eq]
    omega
  have hor : ((cvmU64Shl r 1#32).lo ||| bit).toNat = (cvmU64Shl r 1#32).lo.toNat + bit.toNat := by
    have heven : (r.lo <<< 1).toNat = (r.lo.toNat % 2 ^ 31) <<< 1 := by
      rw [BitVec.toNat_shiftLeft, Nat.shiftLeft_eq, Nat.shiftLeft_eq]
      omega
    rw [hlo, BitVec.toNat_or, heven, ← Nat.shiftLeft_add_eq_or_of_lt hbit]
  have happend := toNat_append (cvmU64Shl r 1#32).hi (cvmU64Shl r 1#32).lo
  rw [bits_mk, toNat_append, hor, ← Nat.add_assoc, ← happend]
  exact congrArg (· + bit.toNat) hshl

/-- A bit that is set above which there is nothing, in a number whose lower bits are free. -/
theorem toNat_setBit (q : CvmI64) {i m : Nat} (hi : i < 64) (hq : q.bits.toNat = m * 2 ^ (i + 1)) :
    (if i ≥ 32 then { q with hi := q.hi ||| (1#32 <<< (i - 32)) } else { q with lo := q.lo ||| (1#32 <<< i) } : CvmI64).bits.toNat =
      (2 * m + 1) * 2 ^ i := by
  have hset : (if i ≥ 32 then { q with hi := q.hi ||| (1#32 <<< (i - 32)) } else { q with lo := q.lo ||| (1#32 <<< i) } : CvmI64).bits =
      q.bits ||| (1#64 <<< i) := by
    have hone : (1#64 : BitVec 64) = (0#32 ++ 1#32 : BitVec 64) := rfl
    by_cases hge : i ≥ 32
    · have hshift := shiftLeft_append_of_le (w := 32) 0#32 1#32 hge
      rw [if_pos hge, hone]
      refine Eq.trans ?_ (congrArg (q.bits ||| ·) hshift.symm)
      have hor : (q.hi ++ q.lo) ||| ((1#32 <<< (i - 32)) ++ 0#32) = (q.hi ||| 1#32 <<< (i - 32)) ++ (q.lo ||| 0#32) := BitVec.or_append
      rw [BitVec.or_zero] at hor
      exact hor.symm
    · have hlt : i < 32 := Nat.lt_of_not_le hge
      have hzero : (1#32 : Word) >>> (32 - i) = 0#32 := by
        apply BitVec.eq_of_toNat_eq
        have hpow : 2 ^ 1 ≤ 2 ^ (32 - i) := Nat.pow_le_pow_right Nat.two_pos (by omega)
        rw [BitVec.toNat_ushiftRight, Nat.shiftRight_eq_div_pow]
        exact Nat.div_eq_of_lt hpow
      have hshift := shiftLeft_append_of_lt (w := 32) 0#32 1#32 hlt
      rw [hzero, BitVec.zero_shiftLeft, BitVec.or_zero] at hshift
      rw [if_neg hge, hone]
      refine Eq.trans ?_ (congrArg (q.bits ||| ·) hshift.symm)
      have hor : (q.hi ++ q.lo) ||| (0#32 ++ (1#32 <<< i)) = (q.hi ||| 0#32) ++ (q.lo ||| 1#32 <<< i) := BitVec.or_append
      rw [BitVec.or_zero] at hor
      exact hor.symm
  have hpow : (1#64 <<< i : BitVec 64).toNat = 2 ^ i := by
    have hlt : 2 ^ i < 2 ^ 64 := Nat.pow_lt_pow_right (by decide) hi
    have hone : (1#64 : BitVec 64).toNat = 1 := rfl
    rw [BitVec.toNat_shiftLeft, Nat.shiftLeft_eq, hone, Nat.one_mul, Nat.mod_eq_of_lt hlt]
  rw [hset, BitVec.toNat_or, hpow, hq, ← Nat.shiftLeft_eq, ← Nat.shiftLeft_add_eq_or_of_lt (Nat.pow_lt_pow_right (by decide) (Nat.lt_succ_self i)),
    Nat.shiftLeft_eq, Nat.pow_succ]
  ring

/-- After the turns for `k` bits: the quotient of the highest `k` bits of the dividend, in its place, and their remainder. -/
structure DividesPrefix (k : Nat) (s : DivMod64) : Prop where
  rem : s.r.bits.toNat = a.bits.toNat / 2 ^ (64 - k) % b.bits.toNat
  quot : s.q.bits.toNat = LongDivision.quotient (a.bits.toNat / 2 ^ (64 - k)) b.bits.toNat k * 2 ^ (64 - k)

variable {a b}

/-- Before the last turn the remainder has its highest bit free, whatever the divisor. -/
theorem DividesPrefix.rem_lt {k : Nat} {s : DivMod64} (h : DividesPrefix a b k s) (hk : k < 64) : s.r.bits.toNat < 2 ^ 63 := by
  have hsplit : 64 = 64 - k + k := by omega
  have hprefix : a.bits.toNat / 2 ^ (64 - k) < 2 ^ k := by
    refine Nat.div_lt_of_lt_mul ?_
    rw [← Nat.pow_add, ← hsplit]
    exact a.bits.isLt
  have hpow : 2 ^ k ≤ 2 ^ 63 := Nat.pow_le_pow_right Nat.two_pos (by omega)
  rw [h.rem]
  have hmod := Nat.mod_le (a.bits.toNat / 2 ^ (64 - k)) b.bits.toNat
  omega

/-- One turn. -/
theorem DividesPrefix.step {k : Nat} {s : DivMod64} (hk : k < 64) (h : DividesPrefix a b k s) :
    DividesPrefix a b (k + 1) (cvmUdivmodStep a b (63 - k) s) := by
  have hlt := h.rem_lt hk
  obtain ⟨hrem, hquot⟩ := h
  obtain ⟨i, hi, hsub, hnext⟩ : ∃ i, 63 - k = i ∧ 64 - k = i + 1 ∧ 64 - (k + 1) = i := ⟨63 - k, rfl, by omega, by omega⟩
  have hi64 : i < 64 := by omega
  rw [hsub] at hrem hquot
  have hbit := toNat_bit a hi64
  have hbit2 : a.bits.toNat / 2 ^ i % 2 < 2 := Nat.mod_lt _ (by decide)
  have hprefix := LongDivision.prefix_next a.bits.toNat i
  have hmod := LongDivision.mod_next (a := a.bits.toNat / 2 ^ (i + 1)) (b := b.bits.toNat) hbit2
  have hdiv := LongDivision.quotient_next (a := a.bits.toNat / 2 ^ (i + 1)) (b := b.bits.toNat) (m := k) hbit2
  rw [← hprefix, ← hrem] at hmod hdiv
  rw [hi]
  unfold cvmUdivmodStep
  dsimp only
  rw [cvmU64Le_eq, toNat_shl_bit s.r hlt (by rw [hbit]; exact hbit2), hbit]
  by_cases hfits : b.bits.toNat ≤ 2 * s.r.bits.toNat + a.bits.toNat / 2 ^ i % 2
  · rw [if_pos (decide_eq_true hfits)]
    rw [if_pos hfits] at hmod hdiv
    constructor
    · rw [hnext, hmod, bits_sub, BitVec.toNat_sub_of_le, toNat_shl_bit s.r hlt (by rw [hbit]; exact hbit2), hbit]
      rw [BitVec.le_def, toNat_shl_bit s.r hlt (by rw [hbit]; exact hbit2), hbit]
      exact hfits
    · rw [hnext, hdiv]
      exact toNat_setBit s.q hi64 hquot
  · rw [if_neg (by simpa only [decide_eq_true_eq] using hfits)]
    rw [if_neg hfits] at hmod hdiv
    constructor
    · rw [hnext, hmod, toNat_shl_bit s.r hlt (by rw [hbit]; exact hbit2), hbit]
    · rw [hnext, hdiv, hquot, Nat.pow_succ]
      ring

/-- The state after any number of turns. -/
theorem dividesPrefix_loop {k : Nat} (hk : k ≤ 64) : DividesPrefix a b k (cvmUdivmodLoop a b k) := by
  induction k with
  | zero =>
    have hall : a.bits.toNat / 2 ^ (64 - 0) = 0 := Nat.div_eq_of_lt a.bits.isLt
    constructor
    · rw [hall, Nat.zero_mod]
      exact congrArg BitVec.toNat bits_zero
    · have hzero : LongDivision.quotient 0 b.bits.toNat 0 = 0 := by
        unfold LongDivision.quotient
        split
        · rfl
        · exact Nat.zero_div _
      rw [hall, hzero, Nat.zero_mul]
      exact congrArg BitVec.toNat bits_zero
  | succ k ih => exact (ih (Nat.le_of_succ_le hk)).step hk

variable (a b)

/-- The unsigned division of the runtime is the long division of 64 turns. -/
theorem toNat_udiv : (cvmUdiv64 a b).bits.toNat = LongDivision.quotient a.bits.toNat b.bits.toNat 64 := by
  have h := (dividesPrefix_loop (a := a) (b := b) (Nat.le_refl 64)).quot
  rw [Nat.sub_self, Nat.pow_zero, Nat.div_one, Nat.mul_one] at h
  exact h

/-- Its remainder is the one of the numbers. -/
theorem toNat_umod : (cvmUmod64 a b).bits.toNat = a.bits.toNat % b.bits.toNat := by
  have h := (dividesPrefix_loop (a := a) (b := b) (Nat.le_refl 64)).rem
  rw [Nat.sub_self, Nat.pow_zero, Nat.div_one] at h
  exact h

end division

end CronoVM
