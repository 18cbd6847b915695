import CronoVM.Lemmas.Overflow
import CronoVM.Theorems.Safety

/-!
# Overflow flags are exact

The intrinsics with an overflow flag leave the wrapped result, and a flag that tells whether the integers have a result of the width.
-/

namespace CronoVM

open Checked Ir NarrowInt TwoWord IntWords

variable {κ W : Type}

namespace OverflowKind

/-- The integer of an operand or a result. -/
def value (kind : OverflowKind) {bits : Nat} (x : BitVec bits) : Int := if kind = .sadd then x.toInt else x.toNat

/-- The operation on integers. -/
def exact (kind : OverflowKind) (a b : Int) : Int := if kind = .umul then a * b else a + b

/-- An integer has a signed or unsigned representation of `bits` bits. -/
def Fits (kind : OverflowKind) (bits : Nat) (z : Int) : Prop :=
  if kind = .sadd then -2 ^ (bits - 1) ≤ z ∧ z < 2 ^ (bits - 1) else 0 ≤ z ∧ z < 2 ^ bits

instance (kind : OverflowKind) (bits : Nat) (z : Int) : Decidable (kind.Fits bits z) := by
  unfold Fits
  infer_instance

/-- The words of the wrapped result, and the flag. -/
def resultWords (kind : OverflowKind) {bits : Nat} (x y : BitVec bits) : List Word :=
  words 32 (cgOverflowValWords bits) (kind.value (BitVec.ofInt bits (kind.exact (kind.value x) (kind.value y)))) ++
    [boolWord (decide ¬kind.Fits bits (kind.exact (kind.value x) (kind.value y)))]

end OverflowKind

namespace OverflowAux

open OverflowKind

/-! ## Flags -/

/-- The flags of two conditions, one of which holds. -/
theorem boolWord_or (a b : Bool) : boolWord a ||| boolWord b = boolWord (a || b) := by
  cases a <;> cases b <;> decide

/-- The flags of two conditions that both hold. -/
theorem boolWord_and (a b : Bool) : boolWord a &&& boolWord b = boolWord (a && b) := by
  cases a <;> cases b <;> decide

/-- The carry of a sum is the flag of its overflow. -/
theorem carry_eq_boolWord (x y : Word) : carry x y = boolWord (decide (2 ^ 32 ≤ x.toNat + y.toNat)) := by
  have hx := x.isLt
  have hy := y.isLt
  have hwrap : x + y < x ↔ 2 ^ 32 ≤ x.toNat + y.toNat := by
    rw [BitVec.lt_def, BitVec.toNat_add]
    omega
  simp only [carry, boolWord, decide_eq_true_eq, hwrap]

/-- The test for a word that is not zero. -/
theorem ltWord_zero_eq (x : Word) : ltWord 0 x = boolWord (decide (0 < x.toNat)) := by
  simp only [ltWord, boolWord, decide_eq_true_eq, BitVec.lt_def]
  rfl

/-- A product has an upper word exactly if it does not fit. -/
theorem ltWord_zero_mulHigh (x y : Word) : ltWord 0 (mulHigh x y) = boolWord (decide (2 ^ 32 ≤ x.toNat * y.toNat)) := by
  have hpos : 0 < x.toNat * y.toNat / 2 ^ 32 ↔ 2 ^ 32 ≤ x.toNat * y.toNat := by omega
  rw [ltWord_zero_eq, toNat_mulHigh, decide_eq_decide.mpr hpos]

/-! ## Unsigned results -/

/-- The words of an unsigned result that is as wide as its words. -/
theorem resultWords_unsigned (kind : OverflowKind) (hkind : kind ≠ .sadd) {n z : Nat} {bits : Nat} {x y : BitVec bits} (hbits : bits = 32 * n)
    (hn : cgOverflowValWords bits = n) (hz : kind.exact x.toNat y.toNat = z) :
    kind.resultWords x y = words 32 n z ++ [boolWord (decide (2 ^ bits ≤ z))] := by
  have hvalue : ∀ v : BitVec bits, kind.value v = v.toNat := fun v => if_neg hkind
  have hcast : ((2 ^ bits : Nat) : Int) = 2 ^ bits := Int.natCast_pow 2 bits
  have hfits : ¬kind.Fits bits z ↔ 2 ^ bits ≤ z := by
    simp only [OverflowKind.Fits, if_neg hkind, ← hcast]
    omega
  rw [resultWords, hvalue x, hvalue y, hz, hvalue, cast_toNat_ofInt, hn, decide_eq_decide.mpr hfits]
  rw [show (2 : Int) ^ bits = 2 ^ (32 * n) by rw [hbits], words_emod]

/-- The code for a sum of 32 bits. -/
theorem uadd_words32 (x y : Word) : [x + y, carry x y] = uadd.resultWords x y := by
  have hres := resultWords_unsigned .uadd nofun (n := 1) (z := x.toNat + y.toNat) (x := x) (y := y) rfl rfl rfl
  rw [hres, words_natCast, words, carry_eq_boolWord, BitVec.ofNat_add, BitVec.ofNat_toNat, BitVec.ofNat_toNat, BitVec.setWidth_eq,
    BitVec.setWidth_eq]
  rfl

/-- The code for a product of 32 bits. -/
theorem umul_words32 (x y : Word) : [x * y, ltWord 0 (mulHigh x y)] = umul.resultWords x y := by
  have hres := resultWords_unsigned .umul nofun (n := 1) (z := x.toNat * y.toNat) (x := x) (y := y) rfl rfl rfl
  rw [hres, words_natCast, words, ltWord_zero_mulHigh, BitVec.ofNat_mul, BitVec.ofNat_toNat, BitVec.ofNat_toNat, BitVec.setWidth_eq,
    BitVec.setWidth_eq]
  rfl

/-- A number of two words. -/
theorem words_two {x : BitVec 64} {lo hi : Word} (h : [lo, hi] = words 32 2 x.toNat) : x.toNat = 2 ^ 32 * hi.toNat + lo.toNat := by
  have hx := x.isLt
  rw [words_natCast, words_natCast] at h
  injection h with hlo hrest
  injection hrest with hhi _
  rw [hlo, hhi, BitVec.toNat_ofNat, BitVec.toNat_ofNat]
  omega

/-- The words of a number, by their values. -/
theorem words_two_eq {z : Nat} {lo hi : Word} (hlo : lo.toNat = z % 2 ^ 32) (hhi : hi.toNat = z / 2 ^ 32 % 2 ^ 32) : [lo, hi] = words 32 2 z := by
  have hlo' : lo = BitVec.ofNat 32 z := BitVec.eq_of_toNat_eq hlo
  have hhi' : hi = BitVec.ofNat 32 (z / 2 ^ 32) := BitVec.eq_of_toNat_eq hhi
  rw [words_natCast, words_natCast, words, hlo', hhi']

/-- The code for a sum of 64 bits, with the carry between the words. -/
theorem uadd_words64 {x y : BitVec 64} {al ah bl bh : Word} (hx : [al, ah] = words 32 2 x.toNat) (hy : [bl, bh] = words 32 2 y.toNat) :
    [al + bl, ah + bh + carry al bl, carry ah bh ||| carry (ah + bh) (carry al bl)] = uadd.resultWords x y := by
  have hal := al.isLt
  have hbl := bl.isLt
  have hah := ah.isLt
  have hbh := bh.isLt
  have hc := toNat_carry al bl
  have hflag := carry_or_carry ah bh (c := carry al bl) (by rw [hc]; omega)
  have hxn := words_two hx
  have hyn := words_two hy
  have hres := resultWords_unsigned .uadd nofun (n := 2) (z := x.toNat + y.toNat) (x := x) (y := y) rfl rfl rfl
  have hvals : [al + bl, ah + bh + carry al bl] = words 32 2 (x.toNat + y.toNat : Nat) := by
    refine words_two_eq ?_ ?_
    · rw [BitVec.toNat_add]
      omega
    · rw [BitVec.toNat_add, BitVec.toNat_add, hc]
      omega
  have hover : carry ah bh ||| carry (ah + bh) (carry al bl) = boolWord (decide (2 ^ 64 ≤ x.toNat + y.toNat)) := by
    apply BitVec.eq_of_toNat_eq
    rw [hflag, hc]
    by_cases h : 2 ^ 64 ≤ x.toNat + y.toNat
    · rw [boolWord, if_pos (decide_eq_true h)]
      change _ = 1
      omega
    · rw [boolWord, if_neg (by rw [decide_eq_true_eq]; exact h)]
      change _ = 0
      omega
  rw [hres, ← hvals, ← hover]
  rfl

/-- A product of two words is too large when a partial product or a carry is above bit 63. -/
theorem umulFlag64_eq (al ah bl bh : Word) : umulFlag64 al ah bl bh =
    boolWord (decide (2 ^ 64 ≤ (2 ^ 32 * ah.toNat + al.toNat) * (2 ^ 32 * bh.toNat + bl.toNat))) := by
  have hprod : (2 ^ 32 * ah.toNat + al.toNat) * (2 ^ 32 * bh.toNat + bl.toNat) =
      2 ^ 64 * (ah.toNat * bh.toNat) + 2 ^ 32 * (al.toNat * bh.toNat) + 2 ^ 32 * (ah.toNat * bl.toNat) + al.toNat * bl.toNat := by
    ring
  have hhigh : 0 < ah.toNat * bh.toNat ↔ 0 < ah.toNat ∧ 0 < bh.toNat := by
    rw [Nat.pos_iff_ne_zero, Nat.mul_ne_zero_iff, Nat.pos_iff_ne_zero, Nat.pos_iff_ne_zero]
  simp only [umulFlag64, carry_eq_boolWord, ltWord_zero_eq, boolWord_or, boolWord_and]
  congr 1
  rw [hprod, Bool.eq_iff_iff]
  simp only [Bool.or_eq_true, Bool.and_eq_true, decide_eq_true_eq, ← hhigh, BitVec.toNat_add, BitVec.toNat_mul, toNat_mulHigh]
  have hR : al.toNat * bl.toNat < 2 ^ 32 * 2 ^ 32 := Nat.mul_lt_mul'' al.isLt bl.isLt
  omega

/-- The code for a product of 64 bits, from the products of its words. -/
theorem umul_words64 {x y : BitVec 64} {al ah bl bh : Word} (hx : [al, ah] = words 32 2 x.toNat) (hy : [bl, bh] = words 32 2 y.toNat) :
    [al * bl, mulHigh al bl + al * bh + ah * bl, umulFlag64 al ah bl bh] = umul.resultWords x y := by
  have hres := resultWords_unsigned .umul nofun (n := 2) (z := x.toNat * y.toNat) (x := x) (y := y) rfl rfl rfl
  have hprod : x.toNat * y.toNat = 2 ^ 32 * (2 ^ 32 * (ah.toNat * bh.toNat) + (al.toNat * bh.toNat + ah.toNat * bl.toNat)) +
      al.toNat * bl.toNat := by
    rw [words_two hx, words_two hy]
    ring
  have hvals : [al * bl, mulHigh al bl + al * bh + ah * bl] = words 32 2 (x.toNat * y.toNat : Nat) := by
    refine words_two_eq ?_ ?_
    · rw [BitVec.toNat_mul, hprod, Nat.mul_add_mod]
    · simp only [BitVec.toNat_add, BitVec.toNat_mul, toNat_mulHigh, hprod]
      omega
  rw [hres, ← hvals, umulFlag64_eq, ← words_two hx, ← words_two hy]
  rfl

/-! ## Signed results -/

/-- A signed result fits exactly if wrapping it changes nothing. -/
theorem fits_iff {bits : Nat} (hpos : 0 < bits) (z : Int) : sadd.Fits bits z ↔ z.bmod (2 ^ bits) = z := by
  have hpow : ((2 ^ bits : Nat) : Int) = 2 * 2 ^ (bits - 1) := by
    obtain ⟨n, rfl⟩ := Nat.exists_eq_succ_of_ne_zero (Nat.ne_of_gt hpos)
    rw [Nat.pow_succ, Nat.mul_comm]
    push_cast
    rfl
  rw [OverflowKind.Fits, if_pos rfl]
  constructor
  · intro h
    exact Int.bmod_eq_of_le_mul_two (by omega) (by omega)
  · intro h
    have hge := Int.le_bmod (x := z) (Nat.two_pow_pos bits)
    have hlt := Int.bmod_lt (x := z) (Nat.two_pow_pos bits)
    rw [h] at hge hlt
    omega

/-- The words of a signed result: those of the sum, the last one with its sign extended. -/
theorem resultWords_signed {m n : Nat} (hpos : 0 < n) (hn : n < 32) (hwords : cgOverflowValWords (32 * m + n) = m + 1)
    (x y : BitVec (32 * m + n)) : sadd.resultWords x y =
      saddWords n (words 32 m (x.toInt + y.toInt)) (BitVec.ofInt 32 ((x.toInt + y.toInt) / 2 ^ (32 * m))) := by
  have hbits : 0 < 32 * m + n := by omega
  have hm : (0 : Int) < 2 ^ (32 * m) := Int.pow_pos (by decide)
  have hexact : sadd.exact (sadd.value x) (sadd.value y) = x.toInt + y.toInt := rfl
  have hvalue : sadd.value (BitVec.ofInt (32 * m + n) (x.toInt + y.toInt)) = (x.toInt + y.toInt).bmod (2 ^ (32 * m + n)) :=
    BitVec.toInt_ofInt _
  -- the sum fits in the words
  have hrange : ∀ v : BitVec (32 * m + n), -(2 ^ (32 * m) * 2 ^ 30) ≤ v.toInt ∧ v.toInt < 2 ^ (32 * m) * 2 ^ 30 := by
    intro v
    have hle : (2 : Int) ^ (32 * m + n - 1) ≤ 2 ^ (32 * m) * 2 ^ 30 := by
      have hnat : 2 ^ (32 * m + n - 1) ≤ 2 ^ (32 * m + 30) := Nat.pow_le_pow_right (by decide) (by omega)
      rw [← Int.pow_add]
      exact_mod_cast hnat
    have hge := BitVec.le_toInt v
    have hlt := BitVec.toInt_lt (x := v)
    omega
  have hsum : -2 ^ 31 ≤ (x.toInt + y.toInt) / 2 ^ (32 * m) ∧ (x.toInt + y.toInt) / 2 ^ (32 * m) < 2 ^ 31 := by
    have hx := hrange x
    have hy := hrange y
    rw [Int.le_ediv_iff_mul_le hm, Int.ediv_lt_iff_lt_mul hm]
    omega
  have hflag : ¬sadd.Fits (32 * m + n) (x.toInt + y.toInt) ↔ BitVec.ofInt 32 ((x.toInt + y.toInt) / 2 ^ (32 * m)) ≠
      extendLow true n (BitVec.ofInt 32 ((x.toInt + y.toInt) / 2 ^ (32 * m))) :=
    not_congr ((fits_iff hbits _).trans (bmod_eq_self_iff hpos (Nat.le_of_lt hn) m hsum.1 hsum.2))
  rw [resultWords, hexact, hvalue, hwords, words_bmod hpos (Nat.le_of_lt hn), decide_eq_decide.mpr hflag, List.append_assoc]
  rfl

/-- The carry of the lowest words. -/
theorem cast_carry (x y : Word) : ((carry x y).toNat : Int) = (x.toNat + y.toNat + 0) / 2 ^ 32 := by
  rw [toNat_carry]
  push_cast
  rw [Int.add_zero]

/-- The code for a signed sum whose top word has `n` bits. -/
theorem sadd_words2 {n : Nat} (hpos : 0 < n) (hn : n < 32) {x y : BitVec (32 + n)} {al ah bl bh : Word}
    (hx : [al, ah] = words 32 2 x.toInt) (hy : [bl, bh] = words 32 2 y.toInt) :
    saddWords n [al + bl] (ah + bh + carry al bl) = sadd.resultWords x y := by
  have hwords : cgOverflowValWords (32 * 1 + n) = 1 + 1 := by
    rw [cgOverflowValWords, if_neg (by omega), if_pos (by omega)]
  injection hx with hal hrest
  injection hrest with hah _
  injection hy with hbl hrest
  injection hrest with hbh _
  subst hal hah hbl hbh
  have hhigh := ofInt_ediv_add (cast_carry (BitVec.ofInt 32 x.toInt) (BitVec.ofInt 32 y.toInt))
  rw [hhigh, ← BitVec.ofInt_add, Int.add_zero]
  exact (resultWords_signed (m := 1) hpos hn hwords x y).symm

/-- The code for a signed sum of 65 bits. -/
theorem sadd_words3 {x y : BitVec 65} {a₀ a₁ a₂ b₀ b₁ b₂ : Word} (hx : [a₀, a₁, a₂] = words 32 3 x.toInt)
    (hy : [b₀, b₁, b₂] = words 32 3 y.toInt) : saddWords 1 [a₀ + b₀, a₁ + b₁ + carry a₀ b₀]
      (a₂ + b₂ + (carry a₁ b₁ ||| carry (a₁ + b₁) (carry a₀ b₀))) = sadd.resultWords x y := by
  injection hx with ha₀ hrest
  injection hrest with ha₁ hrest
  injection hrest with ha₂ _
  injection hy with hb₀ hrest
  injection hrest with hb₁ hrest
  injection hrest with hb₂ _
  subst ha₀ ha₁ ha₂ hb₀ hb₁ hb₂
  obtain ⟨c, hcarry⟩ : ∃ c, c = carry (BitVec.ofInt 32 x.toInt) (BitVec.ofInt 32 y.toInt) := ⟨_, rfl⟩
  have hc := cast_carry (BitVec.ofInt 32 x.toInt) (BitVec.ofInt 32 y.toInt)
  rw [← hcarry] at hc
  have hle : c.toNat ≤ 1 := by omega
  have hover : ((carry (BitVec.ofInt 32 (x.toInt / 2 ^ 32)) (BitVec.ofInt 32 (y.toInt / 2 ^ 32)) |||
      carry (BitVec.ofInt 32 (x.toInt / 2 ^ 32) + BitVec.ofInt 32 (y.toInt / 2 ^ 32)) c).toNat : Int) =
        ((BitVec.ofInt 32 (x.toInt / 2 ^ 32)).toNat + (BitVec.ofInt 32 (y.toInt / 2 ^ 32)).toNat + c.toNat) / 2 ^ 32 := by
    rw [carry_or_carry _ _ hle]
    push_cast
    rfl
  have hmid := ofInt_ediv_add hc
  have hhigh := ofInt_ediv_add hover
  have hsum : x.toInt / 2 ^ 32 + y.toInt / 2 ^ 32 + c.toNat = (x.toInt + y.toInt + 0) / 2 ^ 32 := by rw [add_ediv, ← hc]
  rw [← hcarry, hhigh, hmid, hsum, ← BitVec.ofInt_add, Int.add_zero, Int.ediv_ediv_of_nonneg (by decide)]
  exact (resultWords_signed (m := 2) (n := 1) (by decide) (by decide) rfl x y).symm

end OverflowAux

open OverflowAux OverflowKind

/-- The slots of an operand of 65 bits are slots of the frame. -/
def Cg.HasWide3Slots (cg : Cg) (v : Val) : Prop :=
  ∀ l home slot, v = .loc l → cg.home? l = some home → home.i64Slot = some slot → slot + 2 < cg.valSpillCount

section sequences

variable {img : Image κ} (host : Host κ W) (hcode : img.code.length = img.codeCount.toNat) {cg : Cg} {f : Frame κ W} {v v' : Val}
include hcode

/-- The words of two operands of 65 bits in registers. -/
theorem OverflowAux.wp_twoWide3 (hok : cg.Ok) (hin : InFrame cg img f) (hv : cg.HasWide3Slots v) (hv' : cg.HasWide3Slots v') {α : Type}
    {k : Byte × Byte × Byte → Byte × Byte × Byte → Emit α} {Q : α → Cg → Prop}
    (hk : ∀ a b cg' f', Prepares img host cg f cg' f' → [a.1, a.2.1, a.2.2].map f'.regs = wide3Words cg f v →
      [b.1, b.2.1, b.2.2].map f'.regs = wide3Words cg f v' → (∀ r ∈ [a.1, a.2.1, a.2.2, b.1, b.2.1, b.2.2], Held r cg'.nextReg) →
      Exec.wp (k a b) Q (fun e _ => e.OfOperand) cg') : Exec.wp (do
      let a ← cgI65Read v
      let b ← cgI65Read v'
      k a b) Q (fun e _ => e.OfOperand) cg := by
  rw [Exec.wp_bind]
  refine Exec.wp_mono ?_ (fun _ _ he => he) (wp_cgI65Read host hcode hok hin v hv)
  rintro a cg₁ ⟨f₁, hprep₁, ha, hheld₁⟩
  have hv₁ : cg₁.HasWide3Slots v' := by
    obtain ⟨ws, n, rfl, _⟩ := hprep₁.emitted
    exact hv'
  rw [Exec.wp_bind]
  refine Exec.wp_mono ?_ (fun _ _ he => he) (wp_cgI65Read host hcode (hprep₁.ok hok) (hprep₁.inFrame hin) v' hv₁)
  rintro b cg₂ ⟨f₂, hprep₂, hb, hheld₂⟩
  have hwords : wide3Words cg₁ f₁ v' = wide3Words cg f v' := by
    have hlookup : cg₁.lookup v' = cg.lookup v' := by
      obtain ⟨ws, n, rfl, _⟩ := hprep₁.emitted
      rfl
    simp only [wide3Words, hlookup, hprep₁.slotAddr_eq, hprep₁.agrees.heap]
  have hkeep : [a.1, a.2.1, a.2.2].map f₂.regs = [a.1, a.2.1, a.2.2].map f₁.regs :=
    List.map_congr_left fun r hr => hprep₂.regs (hheld₁ r hr)
  refine hk a b cg₂ f₂ (hprep₁.trans hcode hprep₂) (hkeep.trans ha) (hb.trans hwords) fun r hr => ?_
  have hmem : r ∈ [a.1, a.2.1, a.2.2] ++ [b.1, b.2.1, b.2.2] := hr
  rcases List.mem_append.mp hmem with hr | hr
  · exact hprep₂.held (hheld₁ r hr)
  · exact hheld₂ r hr

/-- One word, unsigned. -/
theorem OverflowAux.wp_unsigned32 (hok : cg.Ok) (hin : InFrame cg img f) (hzero : f.regs cgRegZero = 0) {kind : OverflowKind} (hkind : kind ≠ .sadd)
    {x y : Word} (hx : [operandWord cg f v] = words 32 1 (x.toNat : Int)) (hy : [operandWord cg f v'] = words 32 1 (y.toNat : Int)) :
    Exec.wp (cgOverflowRegs kind 32 v v') (GivesRegs img host cg f (kind.resultWords x y)) (fun e _ => e.OfOperand) cg := by
  have hword : ∀ z : Word, words 32 1 (z.toNat : Int) = [z] := by
    intro z
    rw [words_natCast, words, BitVec.ofNat_toNat, BitVec.setWidth_eq]
  rw [hword] at hx hy
  injection hx with hx _
  injection hy with hy _
  rw [cgOverflowRegs, if_pos rfl]
  refine wp_twoOperands host hcode hok hin fun a b cg₁ f₁ hprep ha hb hheldA hheldB => ?_
  have hok₁ := hprep.ok hok
  rw [hx] at ha
  rw [hy] at hb
  cases kind with
  | sadd => exact absurd rfl hkind
  | uadd =>
    have hsrcs : ∀ r ∈ [a, b], Held r cg₁.nextReg := by
      intro r hr
      simp only [List.mem_cons, List.not_mem_nil, or_false] at hr
      rcases hr with rfl | rfl
      · exact hheldA
      · exact hheldB
    refine Exec.wp_mono ?_ (fun _ _ he => he) (wp_cgUaddOverflow32 (f := f₁) host hcode hok₁ hsrcs)
    intro rs cg₂ hgives
    rw [ha, hb, uadd_words32] at hgives
    exact hgives.after hcode hprep
  | umul =>
    have hsrcs : ∀ r ∈ [a, b, cg₁.zeroReg], Held r cg₁.nextReg := by
      intro r hr
      simp only [List.mem_cons, List.not_mem_nil, or_false] at hr
      rcases hr with rfl | rfl | rfl
      · exact hheldA
      · exact hheldB
      · exact Or.inr hok₁.zero
    have hzero₁ : f₁.regs cgRegZero = 0 := (hprep.regs (Or.inr rfl)).trans hzero
    refine Exec.wp_mono ?_ (fun _ _ he => he) (wp_cgUmulOverflow32 (f := f₁) host hcode hok₁ hzero₁ hsrcs)
    intro rs cg₂ hgives
    rw [ha, hb, umul_words32] at hgives
    exact hgives.after hcode hprep

/-- Two words, unsigned. -/
theorem OverflowAux.wp_unsigned64 (hok : cg.Ok) (hin : InFrame cg img f) (hzero : f.regs cgRegZero = 0) {kind : OverflowKind} (hkind : kind ≠ .sadd)
    {x y : BitVec 64} (hx : [(wideWords cg f v).1, (wideWords cg f v).2] = words 32 2 (x.toNat : Int))
    (hy : [(wideWords cg f v').1, (wideWords cg f v').2] = words 32 2 (y.toNat : Int)) :
    Exec.wp (cgOverflowRegs kind 64 v v') (GivesRegs img host cg f (kind.resultWords x y)) (fun e _ => e.OfOperand) cg := by
  have h32 : ¬64 = 32 := by decide
  have h65 : ¬(kind = .sadd ∧ 64 = 65) := fun h => absurd h.2 (by decide)
  rw [cgOverflowRegs, if_neg h32, if_neg h65]
  refine wp_twoWide host hcode hok hin fun a b cg₁ f₁ hprep ha hb => ?_
  have hok₁ := hprep.ok hok
  rw [← ha.words.1, ← ha.words.2] at hx
  rw [← hb.words.1, ← hb.words.2] at hy
  cases kind with
  | sadd => exact absurd rfl hkind
  | uadd =>
    refine Exec.wp_mono ?_ (fun _ _ he => he) (wp_cgUaddOverflow64 (f := f₁) host hcode hok₁ (held_srcs ha hb))
    intro rs cg₂ hgives
    rw [uadd_words64 hx hy] at hgives
    exact hgives.after hcode hprep
  | umul =>
    have hsrcs : ∀ r ∈ [a.1, a.2, b.1, b.2, cg₁.zeroReg], Held r cg₁.nextReg := by
      intro r hr
      have hmem : r ∈ [a.1, a.2, b.1, b.2] ++ [cg₁.zeroReg] := hr
      rcases List.mem_append.mp hmem with hr | hr
      · exact held_srcs ha hb r hr
      · rw [List.mem_singleton.mp hr]
        exact Or.inr hok₁.zero
    have hzero₁ : f₁.regs cgRegZero = 0 := (hprep.regs (Or.inr rfl)).trans hzero
    refine Exec.wp_mono ?_ (fun _ _ he => he) (wp_cgUmulOverflow64 (f := f₁) host hcode hok₁ hzero₁ hsrcs)
    intro rs cg₂ hgives
    rw [umul_words64 hx hy] at hgives
    exact hgives.after hcode hprep

/-- Two words, signed. -/
theorem OverflowAux.wp_signedWide2 (hok : cg.Ok) (hin : InFrame cg img f) {n : Nat} (hpos : 0 < n) (hn : n < 32) {x y : BitVec (32 + n)}
    (hx : [(wideWords cg f v).1, (wideWords cg f v).2] = words 32 2 x.toInt)
    (hy : [(wideWords cg f v').1, (wideWords cg f v').2] = words 32 2 y.toInt) :
    Exec.wp (cgOverflowRegs .sadd (32 + n) v v') (GivesRegs img host cg f (sadd.resultWords x y)) (fun e _ => e.OfOperand) cg := by
  have h32 : ¬32 + n = 32 := by omega
  have h65 : ¬(sadd = .sadd ∧ 32 + n = 65) := fun h => by omega
  rw [cgOverflowRegs, if_neg h32, if_neg h65]
  refine wp_twoWide host hcode hok hin fun a b cg₁ f₁ hprep ha hb => ?_
  rw [← ha.words.1, ← ha.words.2] at hx
  rw [← hb.words.1, ← hb.words.2] at hy
  refine Exec.wp_mono ?_ (fun _ _ he => he) (wp_cgSaddOverflowWide2 (f := f₁) host hcode (hprep.ok hok) hpos hn (held_srcs ha hb))
  intro rs cg₂ hgives
  rw [sadd_words2 hpos hn hx hy] at hgives
  exact hgives.after hcode hprep

/-- Three words, signed. -/
theorem OverflowAux.wp_signedWide3 (hok : cg.Ok) (hin : InFrame cg img f) (hv : cg.HasWide3Slots v) (hv' : cg.HasWide3Slots v') {x y : BitVec 65}
    (hx : wide3Words cg f v = words 32 3 x.toInt) (hy : wide3Words cg f v' = words 32 3 y.toInt) :
    Exec.wp (cgOverflowRegs .sadd 65 v v') (GivesRegs img host cg f (sadd.resultWords x y)) (fun e _ => e.OfOperand) cg := by
  have h32 : ¬65 = 32 := by decide
  rw [cgOverflowRegs, if_neg h32, if_pos ⟨rfl, rfl⟩]
  refine wp_twoWide3 host hcode hok hin hv hv' fun a b cg₁ f₁ hprep ha hb hsrcs => ?_
  refine Exec.wp_mono ?_ (fun _ _ he => he) (wp_cgSaddOverflowWide3 (f := f₁) host hcode (hprep.ok hok) hsrcs)
  intro rs cg₂ hgives
  rw [sadd_words3 (ha.trans hx) (hb.trans hy)] at hgives
  exact hgives.after hcode hprep

/-- The code leaves the words of the result and the flag in registers. -/
theorem OverflowAux.wp_cgOverflowRegs (hok : cg.Ok) (hin : InFrame cg img f) (hzero : f.regs cgRegZero = 0) {kind : OverflowKind} {bits : Nat}
    (hkind : cgOverflowCallKind kind bits = true) (hslots : bits = 65 → cg.HasWide3Slots v ∧ cg.HasWide3Slots v') {x y : BitVec bits}
    (hx : operandWords cg f bits v = words 32 (cgOverflowValWords bits) (kind.value x))
    (hy : operandWords cg f bits v' = words 32 (cgOverflowValWords bits) (kind.value y)) :
    Exec.wp (cgOverflowRegs kind bits v v') (GivesRegs img host cg f (kind.resultWords x y)) (fun e _ => e.OfOperand) cg := by
  by_cases hsigned : kind = .sadd
  · subst hsigned
    rcases of_decide_eq_true hkind with ⟨hge, hle⟩ | rfl
    · obtain ⟨n, rfl⟩ := Nat.exists_eq_add_of_le (Nat.le_of_succ_le hge)
      have hwords : cgOverflowValWords (32 + n) = 2 := by rw [cgOverflowValWords, if_neg (by omega), if_pos (by omega)]
      rw [hwords, operandWords, if_neg (by omega), if_pos (by omega)] at hx hy
      exact wp_signedWide2 host hcode hok hin (by omega) (by omega) hx hy
    · exact wp_signedWide3 host hcode hok hin (hslots rfl).1 (hslots rfl).2 hx hy
  · have hwidth : bits = 32 ∨ bits = 64 := by
      cases kind with
      | sadd => exact absurd rfl hsigned
      | uadd | umul => exact of_decide_eq_true hkind
    rw [value, if_neg hsigned] at hx hy
    rcases hwidth with rfl | rfl
    · exact wp_unsigned32 host hcode hok hin hzero hsigned hx hy
    · exact wp_unsigned64 host hcode hok hin hzero hsigned hx hy

end sequences

/-- Two integers of 33 bits in slots 0 to 3, the aggregate in slots 4 to 6. -/
def overflowCg : Cg where
  code := []
  map := [(.arg 0, { reg := 0, i64Slot := some 0 }), (.arg 1, { reg := 0, i64Slot := some 2 }), (.inst 1, { reg := 0, aggSlot := some 4 })]
  nextReg := 1
  freeList := []
  zeroReg := cgRegZero
  allocaBytes := 0
  spillBytes := 0
  valSpillCount := 7
  frameBytes := 28
  ssaRegHigh := 1
  globals := []
  funcs := []

/-- `llvm.sadd.with.overflow.i33` -/
def overflowInst : Inst := { id := 1, op := .call, ty := .int 33, operands := [.loc (.arg 0), .loc (.arg 1)] }

/-- The code generator after the call. -/
def overflowDone : Cg :=
  match cgWithOverflow .sadd 33 overflowInst overflowCg with
  | .val _ cg => cg
  | _ => overflowCg

def overflowImage : Image Unit :=
  { codeImage overflowDone.code with heap := { size := 64, byte := fun p => if p < 4 then 0xFF else if p = 8 then 1 else 0 } }

/-- The largest word and 1. -/
def overflowFrame : Frame Unit Unit where
  regs _ := 0
  heap := overflowImage.heap
  importFns := []
  world := ()
  pc := 0

end CronoVM
