import Mathlib.Data.BitVec
import Mathlib.Logic.Function.Iterate

/-!
# Shift registers with linear feedback

A register of `w` bits is fed bits at its low end and shifted towards it; the bit that falls out adds a polynomial. A step is linear in
exclusive or, and injective if the polynomial has its top bit. So messages of one length whose differences lie in a window of `w` bits
leave different registers.
-/

namespace CronoVM.Lfsr

variable {w : Nat} {poly : BitVec w}

/-! ## Steps -/

/-- One step of the register. -/
def step (poly x : BitVec w) : BitVec w := (x >>> 1) ^^^ if x.getLsbD 0 then poly else 0#w

theorem xor_xor_cancel (x y z : BitVec w) : (x ^^^ z) ^^^ (y ^^^ z) = x ^^^ y := by
  have hzero : z ^^^ z = 0#w := BitVec.xor_self
  calc (x ^^^ z) ^^^ (y ^^^ z) = (x ^^^ y) ^^^ (z ^^^ z) := by ac_rfl
    _ = x ^^^ y := by rw [hzero, BitVec.xor_zero]

theorem step_xor (x y : BitVec w) : step poly (x ^^^ y) = step poly x ^^^ step poly y := by
  unfold step
  rw [BitVec.ushiftRight_xor_distrib, BitVec.getLsbD_xor]
  cases x.getLsbD 0 with
  | false => cases y.getLsbD 0 with
    | false => simp
    | true =>
      simp only [Bool.false_xor, if_true, Bool.false_eq_true, if_false, BitVec.xor_zero]
      ac_rfl
  | true => cases y.getLsbD 0 with
    | false =>
      simp only [Bool.xor_false, if_true, Bool.false_eq_true, if_false, BitVec.xor_zero]
      ac_rfl
    | true =>
      simp only [Bool.xor_self, if_true, Bool.false_eq_true, if_false, BitVec.xor_zero]
      exact (xor_xor_cancel _ _ _).symm

@[simp] theorem step_zero : step poly (0#w) = 0#w := by
  unfold step
  simp

/-- A step tells the bits of the register. -/
theorem eq_zero_of_step (hpoly : poly.msb = true) {x : BitVec w} (h : step poly x = 0#w) : x = 0#w := by
  have hbits : ∀ i, (x.getLsbD (1 + i) ^^ ((if x.getLsbD 0 then poly else 0#w).getLsbD i)) = false := by
    intro i
    have hbit := congrArg (fun y => y.getLsbD i) h
    simpa [step] using hbit
  have hlow : x.getLsbD 0 = false := by
    by_contra hset
    have htop := hbits (w - 1)
    rw [if_pos (Bool.eq_true_of_not_eq_false hset), ← BitVec.msb_eq_getLsbD_last, hpoly,
      BitVec.getLsbD_of_ge x _ (by omega)] at htop
    nomatch htop
  apply BitVec.eq_of_getLsbD_eq
  intro i hi
  cases i with
  | zero => simpa using hlow
  | succ i =>
    have hbit := hbits i
    rw [hlow] at hbit
    simpa [Nat.add_comm] using hbit

theorem eq_zero_of_iterate (hpoly : poly.msb = true) {n : Nat} {x : BitVec w} (h : (step poly)^[n] x = 0#w) : x = 0#w := by
  induction n generalizing x with
  | zero => exact h
  | succ n ih =>
    rw [Function.iterate_succ_apply] at h
    exact eq_zero_of_step hpoly (ih h)

/-! ## Bits -/

/-- A bit at the low end of a register. -/
def bit (w : Nat) (b : Bool) : BitVec w := if b then 1#w else 0#w

/-- The register that holds the given bits, the first one lowest. -/
def ofBits (w : Nat) : List Bool → BitVec w
  | [] => 0#w
  | b :: bs => bit w b ^^^ (ofBits w bs <<< 1)

theorem getLsbD_ofBits (bs : List Bool) (i : Nat) : (ofBits w bs).getLsbD i = (decide (i < w) && bs.getD i false) := by
  induction bs generalizing i with
  | nil => simp [ofBits]
  | cons b bs ih =>
    rw [ofBits, BitVec.getLsbD_xor, BitVec.getLsbD_shiftLeft]
    cases i with
    | zero => cases b <;> simp [bit]
    | succ i =>
      have hone : (bit w b).getLsbD (i + 1) = false := by cases b <;> simp [bit]
      rw [hone, ih]
      have hlt : i + 1 < w → i < w := Nat.lt_of_succ_lt
      by_cases h : i + 1 < w
      · simp [h, hlt h]
      · simp [h]

/-- Shifting up a register with a free top bit is undone by a step. -/
theorem step_shiftLeft {x : BitVec w} (htop : x.msb = false) : step poly (x <<< 1) = x := by
  apply BitVec.eq_of_getLsbD_eq
  intro i hi
  have hlow : (x <<< 1).getLsbD 0 = false := by simp
  rw [step, hlow, if_neg Bool.false_ne_true, BitVec.xor_zero, BitVec.getLsbD_ushiftRight, BitVec.getLsbD_shiftLeft]
  by_cases hlast : 1 + i < w
  · simp [hlast]
  · have hi' : i = w - 1 := by omega
    rw [BitVec.msb_eq_getLsbD_last, ← hi'] at htop
    simp [hlast, htop]

/-- The register after a message. -/
def feed (poly : BitVec w) (x : BitVec w) (bs : List Bool) : BitVec w := bs.foldl (fun x b => step poly (x ^^^ bit w b)) x

@[simp] theorem feed_nil (x : BitVec w) : feed poly x [] = x := rfl

@[simp] theorem feed_cons (x : BitVec w) (b : Bool) (bs : List Bool) : feed poly x (b :: bs) = feed poly (step poly (x ^^^ bit w b)) bs := rfl

theorem feed_append (x : BitVec w) (bs bs' : List Bool) : feed poly x (bs ++ bs') = feed poly (feed poly x bs) bs' := List.foldl_append

/-- A message of at most `w` bits may be added at once. -/
theorem feed_eq (x : BitVec w) {bs : List Bool} (hlen : bs.length ≤ w) : feed poly x bs = (step poly)^[bs.length] (x ^^^ ofBits w bs) := by
  induction bs generalizing x with
  | nil => simp [ofBits]
  | cons b bs ih =>
    rw [List.length_cons] at hlen
    have htop : (ofBits w bs).msb = false := by
      rw [BitVec.msb_eq_getLsbD_last, getLsbD_ofBits, List.getD_eq_getElem?_getD, List.getElem?_eq_none (by omega), Option.getD_none, Bool.and_false]
    rw [feed_cons, ih _ (by omega), List.length_cons, Function.iterate_succ_apply, ofBits, ← BitVec.xor_assoc,
      step_xor (x ^^^ bit w b), step_shiftLeft htop]

/-- Zeros only shift. -/
theorem feed_false (x : BitVec w) {bs : List Bool} (h : ∀ b ∈ bs, b = false) : feed poly x bs = (step poly)^[bs.length] x := by
  induction bs generalizing x with
  | nil => rfl
  | cons b bs ih =>
    rw [feed_cons, ih _ fun b' hb' => h b' (List.mem_cons_of_mem _ hb'), h b List.mem_cons_self]
    simp [bit]

/-- The difference of two registers is the register of the difference. -/
theorem feed_xor (x y : BitVec w) {bs bs' : List Bool} (hlen : bs.length = bs'.length) :
    feed poly x bs ^^^ feed poly y bs' = feed poly (x ^^^ y) (List.zipWith Bool.xor bs bs') := by
  induction bs generalizing x y bs' with
  | nil =>
    rw [List.eq_nil_of_length_eq_zero hlen.symm]
    rfl
  | cons b bs ih =>
    cases bs' with
    | nil => nomatch hlen
    | cons b' bs' =>
      have hbit : bit w (b ^^ b') = bit w b ^^^ bit w b' := by cases b <;> cases b' <;> simp [bit]
      rw [feed_cons, feed_cons, ih _ _ (Nat.succ.inj hlen), ← step_xor, List.zipWith_cons_cons, feed_cons, hbit]
      congr 2
      ac_rfl

/-! ## Bursts -/

theorem ofBits_ne_zero {bs : List Bool} (hlen : bs.length ≤ w) (hset : true ∈ bs) : ofBits w bs ≠ 0#w := by
  intro hzero
  obtain ⟨i, hi, hbit⟩ := List.getElem_of_mem hset
  have hfalse : (ofBits w bs).getLsbD i = false := by
    rw [hzero, BitVec.getLsbD_zero]
  rw [getLsbD_ofBits, List.getD_eq_getElem?_getD, List.getElem?_eq_getElem hi, hbit, decide_eq_true (by omega)] at hfalse
  nomatch hfalse

/-- A message that is not zero, and is zero outside a window of `w` bits, leaves a register that is not zero. -/
theorem feed_ne_zero (hpoly : poly.msb = true) {bs : List Bool} {k : Nat} (hset : true ∈ bs)
    (hwindow : ∀ i : Nat, bs[i]? = some true → k ≤ i ∧ i < k + w) : feed poly (0#w) bs ≠ 0#w := by
  have hoff : ∀ i (hi : i < bs.length), ¬(k ≤ i ∧ i < k + w) → bs[i] = false := by
    intro i hi hout
    refine Bool.eq_false_of_not_eq_true fun htrue => hout (hwindow i ?_)
    rw [List.getElem?_eq_getElem hi, htrue]
  have hfront : ∀ b ∈ bs.take k, b = false := by
    intro b hb
    obtain ⟨i, hi, rfl⟩ := List.getElem_of_mem hb
    rw [List.length_take] at hi
    rw [List.getElem_take]
    exact hoff i (by omega) (by omega)
  have hback : ∀ b ∈ (bs.drop k).drop w, b = false := by
    intro b hb
    obtain ⟨i, hi, rfl⟩ := List.getElem_of_mem hb
    rw [List.length_drop, List.length_drop] at hi
    rw [List.getElem_drop, List.getElem_drop]
    exact hoff _ (by omega) (by omega)
  have hsplit : bs = bs.take k ++ ((bs.drop k).take w ++ (bs.drop k).drop w) := by
    rw [List.take_append_drop, List.take_append_drop]
  have hmiddle : true ∈ (bs.drop k).take w := by
    rw [hsplit] at hset
    rcases List.mem_append.mp hset with h | h
    · exact absurd (hfront true h) (by decide)
    · rcases List.mem_append.mp h with h | h
      · exact h
      · exact absurd (hback true h) (by decide)
  have hlen : ((bs.drop k).take w).length ≤ w := List.length_take_le _ _
  have hzero : (step poly)^[(bs.take k).length] (0#w) = 0#w := Function.iterate_fixed step_zero _
  rw [hsplit, feed_append, feed_append, feed_false _ hfront, hzero, feed_eq _ hlen, feed_false _ hback, BitVec.zero_xor]
  intro h
  exact ofBits_ne_zero hlen hmiddle (eq_zero_of_iterate hpoly (eq_zero_of_iterate hpoly h))

/-- Messages of one length that differ within a window of `w` bits leave different registers. -/
theorem feed_ne (hpoly : poly.msb = true) (x : BitVec w) {bs bs' : List Bool} (hlen : bs.length = bs'.length) (hne : bs ≠ bs') {k : Nat}
    (hwindow : ∀ i : Nat, bs[i]? ≠ bs'[i]? → k ≤ i ∧ i < k + w) : feed poly x bs ≠ feed poly x bs' := by
  have hdiff : ∀ i : Nat, (List.zipWith Bool.xor bs bs')[i]? = some true → bs[i]? ≠ bs'[i]? := by
    intro i hi heq
    rw [List.getElem?_zipWith, heq] at hi
    cases h : bs'[i]? with
    | none => simp [h] at hi
    | some b => simp [h] at hi
  have hset : true ∈ List.zipWith Bool.xor bs bs' := by
    by_contra hnone
    refine hne (List.ext_getElem hlen fun i hi hi' => ?_)
    have hmem : (bs[i] ^^ bs'[i]) ∈ List.zipWith Bool.xor bs bs' := by
      refine List.mem_iff_getElem.mpr ⟨i, by simpa using ⟨hi, hi'⟩, ?_⟩
      rw [List.getElem_zipWith]
    have hfalse : (bs[i] ^^ bs'[i]) = false := Bool.eq_false_of_not_eq_true fun h => hnone (h ▸ hmem)
    simpa using hfalse
  intro heq
  have hzero : feed poly x bs ^^^ feed poly x bs' = _ := feed_xor x x hlen
  rw [heq, BitVec.xor_self, BitVec.xor_self] at hzero
  exact feed_ne_zero hpoly hset (fun i hi => hwindow i (hdiff i hi)) hzero.symm

end CronoVM.Lfsr
