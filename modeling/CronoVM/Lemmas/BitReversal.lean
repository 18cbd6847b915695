import CronoVM.Lemmas.BitIntrinsics

/-!
# Reversals

The networks of `llvm.bswap` and `llvm.bitreverse`: where every bit of the result comes from.
-/

namespace CronoVM

open Checked Ir NarrowInt

variable {κ W : Type}

/-! ## Exchanges of bits -/

theorem getLsbD_swapLowMask {bits : Nat} (hbits : bits ≤ 32) (s i : Nat) :
    (swapLowMask bits s).getLsbD i = decide (i < bits ∧ i % (2 * s) < s) := by
  induction bits with
  | zero => simp [swapLowMask]
  | succ b ih =>
    have hstep : swapLowMask (b + 1) s = if b % (2 * s) < s then swapLowMask b s ||| 1#32 <<< b else swapLowMask b s := by
      rw [swapLowMask, List.range_succ, List.foldl_append]
      rfl
    have hone : (1#32 <<< b).getLsbD i = decide (i = b) := by
      rw [BitVec.getLsbD_shiftLeft, BitVec.getLsbD_one]
      grind
    rw [hstep]
    split
    case isTrue hlow =>
      rw [BitVec.getLsbD_or, ih (by omega), hone]
      by_cases hi : i = b
      · subst hi
        simp [hlow]
      · have hlt : i < b + 1 ↔ i < b := by omega
        simp [hi, hlt]
    case isFalse hhigh =>
      rw [ih (by omega)]
      by_cases hi : i = b
      · subst hi
        simp [hhigh]
      · have hlt : i < b + 1 ↔ i < b := by omega
        simp [hlt]

/-- The groups of `s` bits have changed places. -/
def swapped (bits s : Nat) (x : Word) : Word :=
  (x &&& swapLowMask bits s) <<< s ||| (x &&& (swapLowMask bits s <<< s &&& lowMask 32 bits)) >>> s

/-- The group of a place, and the place in it. -/
theorem group_of {j k i : Nat} (hk : k < j) (hi : i < 2 ^ j) : ∃ q r, i = 2 ^ (k + 1) * q + r ∧ r < 2 ^ (k + 1) ∧ i % 2 ^ (k + 1) = r ∧
    2 ^ (k + 1) * q + 2 ^ (k + 1) ≤ 2 ^ j := by
  have hpos := Nat.two_pow_pos (k + 1)
  refine ⟨i / 2 ^ (k + 1), i % 2 ^ (k + 1), (Nat.div_add_mod i _).symm, Nat.mod_lt _ hpos, rfl, ?_⟩
  have hsplit : 2 ^ j = 2 ^ (k + 1) * 2 ^ (j - (k + 1)) := by
    rw [← Nat.pow_add]
    congr 1
    omega
  rw [hsplit] at hi ⊢
  have hlt : i / 2 ^ (k + 1) < 2 ^ (j - (k + 1)) := Nat.div_lt_of_lt_mul hi
  have hmul := Nat.mul_le_mul_left (2 ^ (k + 1)) (Nat.succ_le_of_lt hlt)
  rwa [Nat.mul_succ] at hmul

/-- Every bit comes from the other group of its pair. -/
theorem getLsbD_swapped {j k : Nat} (hj : j ≤ 5) (hk : k < j) (x : Word) {i : Nat} (hi : i < 2 ^ j) :
    (swapped (2 ^ j) (2 ^ k) x).getLsbD i = x.getLsbD (if i % 2 ^ (k + 1) < 2 ^ k then i + 2 ^ k else i - 2 ^ k) := by
  obtain ⟨q, r, hir, hr, hmod, hgroup⟩ := group_of hk hi
  have hbits : 2 ^ j ≤ 32 := Nat.pow_le_pow_right (by decide) hj
  have htwo : 2 ^ (k + 1) = 2 * 2 ^ k := Nat.pow_succ'
  have hmask : ∀ n, (lowMask 32 (2 ^ j)).getLsbD n = (decide (n < 32) && decide (n < 2 ^ j)) := by
    intro n
    rw [lowMask, BitVec.getLsbD_ofNat, Nat.testBit_two_pow_sub_one]
  unfold swapped
  simp only [BitVec.getLsbD_or, BitVec.getLsbD_ushiftRight, BitVec.getLsbD_and, BitVec.getLsbD_shiftLeft, getLsbD_swapLowMask hbits, hmask]
  rw [htwo] at hir hr hmod hgroup ⊢
  have hlt32 : i < 32 := by omega
  by_cases hlow : r < 2 ^ k
  · have hplace : 2 ^ k + i < 2 ^ j := by omega
    have hother : ¬i < 2 ^ k → ¬(i - 2 ^ k) % (2 * 2 ^ k) < 2 ^ k := by
      intro hge
      have hq : q ≠ 0 := by
        rintro rfl
        omega
      obtain ⟨q', rfl⟩ := Nat.exists_eq_succ_of_ne_zero hq
      have hdown : i - 2 ^ k = 2 * 2 ^ k * q' + (r + 2 ^ k) := by
        rw [Nat.mul_succ] at hir
        omega
      rw [hdown, Nat.mul_add_mod, Nat.mod_eq_of_lt (by omega)]
      omega
    have h1 : 2 ^ k + i < 32 := by omega
    rw [if_pos (by omega), Nat.add_comm i]
    by_cases hge : i < 2 ^ k
    · simp [hge, hplace, h1, hi, hmod, hlow]
    · simp [hge, hplace, h1, hi, hmod, hlow, hother hge]
  · have hge : ¬i < 2 ^ k := by omega
    have hdown : i - 2 ^ k = 2 * 2 ^ k * q + (r - 2 ^ k) := by omega
    have hother : (i - 2 ^ k) % (2 * 2 ^ k) < 2 ^ k := by
      rw [hdown, Nat.mul_add_mod, Nat.mod_eq_of_lt (by omega)]
      omega
    have h1 : i - 2 ^ k < 2 ^ j := by omega
    rw [if_neg (by omega)]
    simp [hge, hmod, hlow, hother, h1, hlt32]

/-- The exchanges of groups of `s` bits, of `2 * s` and so on. -/
def swapNetwork (bits : Nat) : Nat → Nat → Word → Word
  | 0, _, x => x
  | turns + 1, s, x => if s < bits then swapNetwork bits turns (2 * s) (swapped bits s x) else x

/-- The low bits of a place stay, the others are mirrored. -/
theorem getLsbD_swapNetwork {j : Nat} (hj : j ≤ 5) {turns k : Nat} (hk : k ≤ j) (hturns : j ≤ k + turns) (x : Word) {i : Nat} (hi : i < 2 ^ j) :
    (swapNetwork (2 ^ j) turns (2 ^ k) x).getLsbD i = x.getLsbD (2 ^ k * (2 ^ (j - k) - 1 - i / 2 ^ k) + i % 2 ^ k) := by
  induction turns generalizing k x with
  | zero =>
    obtain rfl : k = j := by omega
    rw [swapNetwork, Nat.sub_self, Nat.div_eq_of_lt hi, Nat.mod_eq_of_lt hi]
    simp
  | succ turns ih =>
    rw [swapNetwork]
    by_cases hlt : 2 ^ k < 2 ^ j
    · have hkj : k < j := (Nat.pow_lt_pow_iff_right (by decide)).mp hlt
      obtain ⟨q, r, hir, hr, hmod, hgroup⟩ := group_of hkj hi
      have hdouble : 2 * 2 ^ k = 2 ^ (k + 1) := Nat.pow_succ'.symm
      rw [if_pos hlt, hdouble, ih hkj (by omega)]
      have hpos := Nat.two_pow_pos k
      have hall : 2 ^ j = 2 ^ (k + 1) * 2 ^ (j - (k + 1)) := by
        rw [← Nat.pow_add]
        congr 1
        omega
      have hhalf : 2 ^ (j - k) = 2 * 2 ^ (j - (k + 1)) := by
        rw [← Nat.pow_succ']
        congr 1
        omega
      have hquot : i / 2 ^ (k + 1) = q := by
        rw [hir, Nat.mul_add_div (Nat.two_pow_pos _), Nat.div_eq_of_lt hr, Nat.add_zero]
      have hlt' : q < 2 ^ (j - (k + 1)) := by
        rw [← hquot]
        exact Nat.div_lt_of_lt_mul (by rwa [← hall])
      obtain ⟨a, ha⟩ := Nat.exists_eq_add_of_lt hlt'
      have ha' : 2 ^ (j - (k + 1)) - 1 - q = a := by omega
      have hexpand : 2 ^ (k + 1) * (q + a + 1) = 2 ^ (k + 1) * q + 2 ^ (k + 1) * a + 2 ^ (k + 1) := by ring
      rw [ha] at hall
      have hmirror : 2 ^ (k + 1) * a + r < 2 ^ j := by
        rw [hall, hexpand]
        omega
      rw [hquot, ha', hmod, getLsbD_swapped hj hkj _ hmirror, Nat.mul_add_mod, Nat.mod_eq_of_lt hr, hhalf, ha]
      congr 1
      have hdouble' : 2 ^ (k + 1) * a = 2 ^ k * (2 * a) := by
        rw [← hdouble]
        ring
      by_cases hlow : r < 2 ^ k
      · have hparts : i = 2 ^ k * (2 * q) + r := by
          rw [hir, ← hdouble]
          ring
        have hdiv : i / 2 ^ k = 2 * q := by rw [hparts, Nat.mul_add_div hpos, Nat.div_eq_of_lt hlow, Nat.add_zero]
        have hrem : i % 2 ^ k = r := by rw [hparts, Nat.mul_add_mod, Nat.mod_eq_of_lt hlow]
        have hcount : 2 * (q + a + 1) - 1 - 2 * q = 2 * a + 1 := by omega
        rw [if_pos hlow, hdiv, hrem, hcount, Nat.mul_succ, hdouble']
        omega
      · obtain ⟨r', rfl⟩ := Nat.exists_eq_add_of_le (Nat.le_of_not_lt hlow)
        have hr' : r' < 2 ^ k := by omega
        have hparts : i = 2 ^ k * (2 * q + 1) + r' := by
          rw [hir, ← hdouble]
          ring
        have hdiv : i / 2 ^ k = 2 * q + 1 := by rw [hparts, Nat.mul_add_div hpos, Nat.div_eq_of_lt hr', Nat.add_zero]
        have hrem : i % 2 ^ k = r' := by rw [hparts, Nat.mul_add_mod, Nat.mod_eq_of_lt hr']
        have hcount : 2 * (q + a + 1) - 1 - (2 * q + 1) = 2 * a := by omega
        rw [if_neg hlow, hdiv, hrem, hcount, hdouble']
        omega
    · obtain rfl : k = j := by
        rcases Nat.lt_or_eq_of_le hk with h | h
        · exact absurd (Nat.pow_lt_pow_right (by decide) h) hlt
        · exact h
      rw [if_neg hlt, Nat.sub_self, Nat.div_eq_of_lt hi, Nat.mod_eq_of_lt hi]
      simp

/-- All exchanges reverse the bits. -/
theorem setWidth_swapNetwork {j : Nat} (hj : j ≤ 5) {turns : Nat} (hturns : j ≤ turns) (x : Word) :
    (swapNetwork (2 ^ j) turns 1 (extendLow false (2 ^ j) x)).setWidth (2 ^ j) = (x.setWidth (2 ^ j)).reverse := by
  apply BitVec.eq_of_getLsbD_eq
  intro i hi
  have hbits : 2 ^ j ≤ 32 := Nat.pow_le_pow_right (by decide) hj
  have hnet := getLsbD_swapNetwork hj (Nat.zero_le j) (show j ≤ 0 + turns by omega) (extendLow false (2 ^ j) x) hi
  have hplace : 2 ^ 0 * (2 ^ (j - 0) - 1 - i / 2 ^ 0) + i % 2 ^ 0 = 2 ^ j - 1 - i := by
    rw [Nat.pow_zero, Nat.sub_zero, Nat.div_one, Nat.mod_one, Nat.one_mul, Nat.add_zero]
  have hlt : 2 ^ j - 1 - i < 2 ^ j := by omega
  have hlt' : 2 ^ j - 1 - i < 32 := by omega
  rw [hplace] at hnet
  rw [BitVec.getLsbD_setWidth, decide_eq_true hi, Bool.true_and, BitVec.getLsbD_reverse, BitVec.getMsbD, decide_eq_true hi, Bool.true_and,
    BitVec.getLsbD_setWidth]
  refine hnet.trans ?_
  simp [extendLow, hlt, hlt']

/-! ## Bytes -/

/-- The bytes in the other order. -/
def byteSwap {w : Nat} (x : BitVec w) : BitVec w := (List.range (w / 8)).foldl (fun y k => y <<< 8 ||| (x >>> (8 * k) &&& 255#w)) 0#w

theorem getLsbD_byteMask (w i : Nat) : (255#w).getLsbD i = (decide (i < w) && decide (i < 8)) := by
  rw [BitVec.getLsbD_ofNat, show 255 = 2 ^ 8 - 1 from rfl, Nat.testBit_two_pow_sub_one]

theorem setWidth_bswap16 (x : Word) : ((x &&& 255#32) <<< 8 ||| (x >>> 8 &&& 255#32)).setWidth 16 = byteSwap (x.setWidth 16) := by
  have hswap : byteSwap (x.setWidth 16) = (0#16 <<< 8 ||| (x.setWidth 16 >>> 0 &&& 255#16)) <<< 8 ||| (x.setWidth 16 >>> 8 &&& 255#16) := rfl
  rw [hswap]
  apply BitVec.eq_of_getLsbD_eq
  intro i hi
  simp only [BitVec.getLsbD_setWidth, BitVec.getLsbD_or, BitVec.getLsbD_and, BitVec.getLsbD_shiftLeft, BitVec.getLsbD_ushiftRight, getLsbD_byteMask,
    BitVec.getLsbD_zero]
  by_cases h8 : i < 8
  · have h1 : i < 32 := by omega
    have h2 : 8 + i < 16 := by omega
    simp [h8, hi, h1, h2]
  · have h1 : i < 32 := by omega
    have h2 : i - 8 < 8 := by omega
    have h3 : i - 8 < 32 := by omega
    have h4 : i - 8 < 16 := by omega
    simp [h8, hi, h1, h2, h3, h4]

theorem bswap32_eq (x : Word) : x >>> 24 ||| (x >>> 8 &&& 255#32 <<< 8) ||| (x <<< 8 &&& 255#32 <<< 16) ||| x <<< 24 = byteSwap x := by
  have hswap : byteSwap x = (((0#32 <<< 8 ||| (x >>> 0 &&& 255#32)) <<< 8 ||| (x >>> 8 &&& 255#32)) <<< 8 ||| (x >>> 16 &&& 255#32)) <<< 8 |||
    (x >>> 24 &&& 255#32) := rfl
  rw [hswap]
  apply BitVec.eq_of_getLsbD_eq
  intro i hi
  simp only [BitVec.getLsbD_or, BitVec.getLsbD_and, BitVec.getLsbD_shiftLeft, BitVec.getLsbD_ushiftRight, getLsbD_byteMask,
    BitVec.getLsbD_zero]
  rcases (by omega : i < 8 ∨ (8 ≤ i ∧ i < 16) ∨ (16 ≤ i ∧ i < 24) ∨ 24 ≤ i) with h | ⟨h, h'⟩ | ⟨h, h'⟩ | h
  · grind
  · grind
  · grind
  · grind

/-! ## Code -/

/-- The steps for `s`, `2 * s` and so on, below `bits`. -/
def swapScript (bits : Nat) : Nat → Nat → List ScriptInst
  | 0, _ => []
  | turns + 1, s =>
    if s < bits then
      [.load (.tmp 2) (swapLowMask bits s <<< s &&& lowMask 32 bits), .load (.tmp 3) (swapLowMask bits s), .load (.tmp 4) (BitVec.ofNat 32 s),
        .op (.alu .and (.tmp 1) (.tmp 0) (.tmp 2)), .op (.alu .shr (.tmp 1) (.tmp 1) (.tmp 4)), .op (.alu .and (.tmp 0) (.tmp 0) (.tmp 3)),
        .op (.alu .shl (.tmp 0) (.tmp 0) (.tmp 4)), .op (.alu .or (.tmp 0) (.tmp 0) (.tmp 1))] ++ swapScript bits turns (2 * s)
    else []

theorem swapScript_ok (bits turns s : Nat) : (swapScript bits turns s).all (ScriptInst.ok 1 6) = true := by
  induction turns generalizing s with
  | zero => rfl
  | succ turns ih =>
    rw [swapScript]
    split
    · rw [List.all_append, ih]
      rfl
    · rfl

theorem evalScript_swapScript {bits : Nat} (hbits : bits ≤ 32) (turns s : Nat) (e : RegName → Word) :
    evalScript (swapScript bits turns s) e (.tmp 0) = swapNetwork bits turns s (e (.tmp 0)) := by
  induction turns generalizing s e with
  | zero => rfl
  | succ turns ih =>
    rw [swapScript, swapNetwork]
    split
    case isTrue hlt =>
      have hamt : (BitVec.ofNat 32 s &&& 31).toNat = s := by
        have h31 : (31 : Word).toNat = 2 ^ 5 - 1 := rfl
        rw [BitVec.toNat_and, h31, Nat.and_two_pow_sub_one_eq_mod, BitVec.toNat_ofNat]
        omega
      have hshr : ∀ z : Word, z >>> (BitVec.ofNat 32 s &&& 31) = z >>> s := fun z => by rw [BitVec.ushiftRight_eq', hamt]
      have hshl : ∀ z : Word, z <<< (BitVec.ofNat 32 s &&& 31) = z <<< s := fun z => by rw [BitVec.shiftLeft_eq', hamt]
      rw [evalScript_append, ih]
      congr 1
      simp only [evalScript, ScriptInst.eval, BlockInst.eval, aluOp, Option.getD_some, Function.update_self, Function.update_of_ne, ne_eq,
        RegName.tmp.injEq, OfNat.ofNat_ne_zero, OfNat.zero_ne_ofNat, OfNat.ofNat_ne_one, zero_ne_one, one_ne_zero,
        Nat.reduceEqDiff, not_false_eq_true, hshr, hshl, swapped]
    case isFalse => rfl

/-- The steps emit their script. -/
theorem wp_cgSwapSteps {cg : Cg} {bits turns s m n : Nat} (src : Byte) {ws : List Word} {Q : Unit → Cg → Prop} {E : CgError → Cg → Prop}
    (h : Q () (cg.extend (ws ++ scriptWords (RegName.reg [src] m) (swapScript bits turns s)) n)) :
    Exec.wp (cgSwapSteps bits (RegName.reg [src] m (.tmp 0)) (RegName.reg [src] m (.tmp 1)) (RegName.reg [src] m (.tmp 2))
      (RegName.reg [src] m (.tmp 3)) (RegName.reg [src] m (.tmp 4)) turns s) Q E (cg.extend ws n) := by
  induction turns generalizing s ws with
  | zero =>
    rw [cgSwapSteps, Exec.wp_pure]
    rwa [swapScript, scriptWords, List.flatMap_nil, List.append_nil] at h
  | succ turns ih =>
    rw [cgSwapSteps]
    rw [swapScript] at h
    split at h
    case isTrue hlt =>
      rw [if_pos hlt, Exec.wp_bind, cgSwapStep]
      refine wp_loadNext (wp_loadNext (wp_loadNext (wp_emitNext (wp_emitNext (wp_emitNext (wp_emitNext ?_))))))
      rw [wp_cgEmit, Cg.extend_emit]
      refine ih ?_
      simp only [scriptWords, List.flatMap_cons, ScriptInst.words, BlockInst.word, List.append_assoc, List.cons_append,
        List.nil_append] at h ⊢
      exact h
    case isFalse hge =>
      rw [if_neg hge, Exec.wp_pure]
      rwa [scriptWords, List.flatMap_nil, List.append_nil] at h

section code

variable {img : Image κ} (host : Host κ W) {cg : Cg} {f : Frame κ W} {src dst : Byte}

theorem length_swapScript {j : Nat} (turns k : Nat) : (swapScript (2 ^ j) turns (2 ^ k)).length ≤ 8 * (j - k) := by
  induction turns generalizing k with
  | zero => exact Nat.zero_le _
  | succ turns ih =>
    rw [swapScript]
    by_cases hlt : 2 ^ k < 2 ^ j
    · have hkj : k < j := (Nat.pow_lt_pow_iff_right (by decide)).mp hlt
      have hrest := ih (k + 1)
      have hdouble : 2 * 2 ^ k = 2 ^ (k + 1) := Nat.pow_succ'.symm
      rw [if_pos hlt, List.length_append, hdouble]
      simp only [List.length_cons, List.length_nil]
      omega
    · rw [if_neg hlt]
      exact Nat.zero_le _

variable (hcode : img.code.length = img.codeCount.toNat)
include hcode

theorem reads_single {k : Nat} (hsrc : Held src cg.nextReg) (hnext : cg.nextReg + k ≤ cgMaxEmitReg + 1) (script : List ScriptInst)
    (hok : script.all (ScriptInst.ok 1 k) = true) : ∃ g, RunsIn img host (2 * script.length)
      (scriptWords (RegName.reg [src] cg.nextReg) script) f g ∧ f.AgreesOff (Scratch cg.nextReg) g ∧
        Reads [src] cg.nextReg k g (evalScript script fun x => f.regs (x.reg [src] cg.nextReg)) := by
  have hsrcs : ∀ r ∈ [src], Held r cg.nextReg := by
    intro r hr
    rwa [List.mem_singleton.mp hr]
  obtain ⟨g, hrun, hag, hreads⟩ := runsIn_script (f := f) host hcode hsrcs hnext script hok fun _ _ => rfl
  exact ⟨g, hrun.mono (length_scriptWords _ _), hag, hreads⟩

/-- `llvm.bswap.i16` -/
theorem wp_cgBswap16 (hok : cg.Ok) (hsrc : Held src cg.nextReg) : Exec.wp (cgBswap16 src dst) (fun _ => DefinesIn img host 200 cg f dst
    ((f.regs src &&& 255#32) <<< 8 ||| (f.regs src >>> 8 &&& 255#32))) (fun e _ => e.OfOperand) cg := by
  have hpool := hok.pool
  unfold cgBswap16
  refine wp_extend (wp_allocNext hpool fun _ => wp_allocNext hpool fun _ => wp_allocNext hpool fun _ => wp_allocNext hpool fun hroom => ?_)
  refine wp_loadNext (wp_loadNext (wp_emitNext (wp_emitNext (wp_emitNext (wp_emitNext ?_)))))
  rw [wp_cgEmit, Cg.extend_emit]
  obtain ⟨g, hrun, hag, hreads⟩ := reads_single (f := f) host hcode hsrc (k := 4) (by omega)
    [.load (.tmp 2) 8, .load (.tmp 3) 255, .op (.alu .and (.tmp 0) (.src 0) (.tmp 3)), .op (.alu .shl (.tmp 0) (.tmp 0) (.tmp 2)),
      .op (.alu .shr (.tmp 1) (.src 0) (.tmp 2)), .op (.alu .and (.tmp 1) (.tmp 1) (.tmp 3))] rfl
  have hor := steps_alu (f := g) host hcode (rfl : aluOp .or = some _) dst (RegName.reg [src] cg.nextReg (.tmp 0))
    (RegName.reg [src] cg.nextReg (.tmp 1))
  have hall := hrun.append hcode (.of_steps hor)
  refine ⟨_, cg.nextReg + 4, _, ?_, hall.mono (Nat.le_of_ble_eq_true rfl), ?_⟩
  · simp [Cg.extend, Cg.emit, scriptWords, ScriptInst.words, BlockInst.word, RegName.reg]
  · rw [Frame.setReg_same, hreads (.tmp 0) rfl, hreads (.tmp 1) rfl]
    simp [evalScript, ScriptInst.eval, BlockInst.eval, aluOp, RegName.reg]

/-- Four registers are joined. -/
theorem runsIn_orAll {a b c d : Byte} (hc : c ≠ dst) (hd : d ≠ dst) :
    RunsIn img host 3 ([encR .or dst a b] ++ ([encR .or dst dst c] ++ [encR .or dst dst d])) f
      (f.setReg dst (f.regs a ||| f.regs b ||| f.regs c ||| f.regs d)) := by
  have hor₁ := steps_alu (f := f) host hcode (rfl : aluOp .or = some _) dst a b
  have hor₂ := steps_alu (f := f.setReg dst (f.regs a ||| f.regs b)) host hcode (rfl : aluOp .or = some _) dst dst c
  rw [Frame.setReg_same, Frame.setReg_of_ne _ _ hc, Frame.setReg_setReg] at hor₂
  have hor₃ := steps_alu (f := f.setReg dst (f.regs a ||| f.regs b ||| f.regs c)) host hcode (rfl : aluOp .or = some _) dst dst d
  rw [Frame.setReg_same, Frame.setReg_of_ne _ _ hd, Frame.setReg_setReg] at hor₃
  exact (RunsIn.of_steps hor₁).append hcode ((RunsIn.of_steps hor₂).append hcode (.of_steps hor₃))

/-- `llvm.bswap.i32` -/
theorem wp_cgBswap32 (hok : cg.Ok) (hsrc : Held src cg.nextReg) (hdst : dst.toNat < cg.nextReg) : Exec.wp (cgBswap32 src dst)
    (fun _ => DefinesIn img host 200 cg f dst (f.regs src >>> 24 ||| (f.regs src >>> 8 &&& 255#32 <<< 8) |||
      (f.regs src <<< 8 &&& 255#32 <<< 16) ||| f.regs src <<< 24)) (fun e _ => e.OfOperand) cg := by
  have hpool := hok.pool
  unfold cgBswap32
  refine wp_extend (wp_allocNext hpool fun _ => wp_allocNext hpool fun _ => wp_allocNext hpool fun _ => wp_allocNext hpool fun _ =>
    wp_allocNext hpool fun _ => wp_allocNext hpool fun _ => wp_allocNext hpool fun _ => wp_allocNext hpool fun hroom => ?_)
  refine wp_loadNext (wp_loadNext (wp_loadNext (wp_loadNext (wp_emitNext (wp_emitNext (wp_emitNext (wp_emitNext (wp_emitNext
    (wp_emitNext (wp_emitNext (wp_emitNext ?_)))))))))))
  rw [wp_cgEmit, Cg.extend_emit]
  obtain ⟨g, hrun, hag, hreads⟩ := reads_single (f := f) host hcode hsrc (k := 8) (by omega)
    [.load (.tmp 4) 8, .load (.tmp 5) 24, .load (.tmp 6) 0xFF00, .load (.tmp 7) 0xFF0000, .op (.alu .shr (.tmp 0) (.src 0) (.tmp 5)),
      .op (.alu .shr (.tmp 1) (.src 0) (.tmp 4)), .op (.alu .and (.tmp 1) (.tmp 1) (.tmp 6)), .op (.alu .shl (.tmp 2) (.src 0) (.tmp 4)),
      .op (.alu .and (.tmp 2) (.tmp 2) (.tmp 7)), .op (.alu .shl (.tmp 3) (.src 0) (.tmp 5))] rfl
  have hne : ∀ j < 8, RegName.reg [src] cg.nextReg (.tmp j) ≠ dst := by
    intro j hj heq
    have hnat : (RegName.reg [src] cg.nextReg (.tmp j)).toNat = cg.nextReg + j := toNat_nextReg (by omega)
    rw [heq] at hnat
    omega
  have hor := runsIn_orAll (f := g) host hcode (a := RegName.reg [src] cg.nextReg (.tmp 0)) (b := RegName.reg [src] cg.nextReg (.tmp 1))
    (hne 2 (by decide)) (hne 3 (by decide))
  have hall := hrun.append hcode hor
  refine ⟨_, cg.nextReg + 8, _, ?_, hall.mono (Nat.le_of_ble_eq_true rfl), ?_⟩
  · simp [Cg.extend, Cg.emit, scriptWords, ScriptInst.words, BlockInst.word, RegName.reg]
  · rw [Frame.setReg_same, hreads (.tmp 0) rfl, hreads (.tmp 1) rfl, hreads (.tmp 2) rfl, hreads (.tmp 3) rfl]
    simp [evalScript, ScriptInst.eval, BlockInst.eval, aluOp, RegName.reg]

/-- `llvm.bitreverse.iN` -/
theorem wp_cgBitreverse (hok : cg.Ok) (hsrc : Held src cg.nextReg) {j : Nat} (hj : j ≤ 5) : Exec.wp (cgBitreverse (2 ^ j) src dst)
    (fun _ => DefinesIn img host 200 cg f dst (swapNetwork (2 ^ j) (2 ^ j) 1 (extendLow false (2 ^ j) (f.regs src))))
      (fun e _ => e.OfOperand) cg := by
  have hpool := hok.pool
  unfold cgBitreverse
  refine wp_extend (wp_allocNext hpool fun _ => wp_allocNext hpool fun _ => wp_allocNext hpool fun _ => wp_allocNext hpool fun _ =>
    wp_allocNext hpool fun _ => wp_allocNext hpool fun hroom => ?_)
  refine wp_loadNext (wp_emitNext ?_)
  rw [Exec.wp_bind]
  refine wp_cgSwapSteps src ?_
  rw [wp_cgEmit, Cg.extend_emit]
  have hbits : 2 ^ j ≤ 32 := Nat.pow_le_pow_right (by decide) hj
  obtain ⟨g, hrun, hag, hreads⟩ := reads_single (f := f) host hcode hsrc (k := 6) (by omega)
    ([.load (.tmp 5) (lowMask 32 (2 ^ j)), .op (.alu .and (.tmp 0) (.src 0) (.tmp 5))] ++ swapScript (2 ^ j) (2 ^ j) 1) (by
      rw [List.all_append, swapScript_ok]
      rfl)
  have hmov := steps_mov (f := g) host hcode dst (RegName.reg [src] cg.nextReg (.tmp 0)) 0
  have hlen : (swapScript (2 ^ j) (2 ^ j) 1).length ≤ 8 * j := length_swapScript (2 ^ j) 0
  have hall := hrun.append hcode (.of_steps hmov)
  refine ⟨_, cg.nextReg + 6, _, ?_, hall.mono ?_, ?_⟩
  · simp [Cg.extend, Cg.emit, scriptWords, ScriptInst.words, BlockInst.word, RegName.reg]
  · rw [List.length_append]
    simp only [List.length_cons, List.length_nil]
    omega
  · rw [Frame.setReg_same, hreads (.tmp 0) rfl, evalScript_append, evalScript_swapScript hbits]
    congr 1
    simp [evalScript, ScriptInst.eval, BlockInst.eval, aluOp, RegName.reg, and_lowMask, extendLow]

end code

end CronoVM
