import CronoVM.Lemmas.FreshRegister
import CronoVM.Lemmas.Narrow
import CronoVM.Lemmas.Scripts
import CronoVM.Translator.BitIntrinsics

/-!
# Funnel shifts

The word the code of a funnel shift leaves, and when its low bits are those of the shift.
-/

namespace CronoVM

open Checked Ir NarrowInt

variable {κ W : Type}

/-! ## On words -/

/-- A funnel shift: `a` above `b`, shifted by the amount modulo the width, and its upper or its lower half. -/
def funnelEval (isFshr : Bool) {w : Nat} (a b c : BitVec w) : BitVec w :=
  if isFshr = true then ((a ++ b) >>> (c.toNat % w)).setWidth w else ((a ++ b) <<< (c.toNat % w)).extractLsb' w w

/-- The amount in a register, as `cgFunnelAmount` leaves it. -/
def funnelAmount (w : Nat) (c : Word) : Word := if w < 32 then c &&& BitVec.ofNat 32 (w - 1) else c

/-- What the two shifts make together. -/
def funnelJoin (isFshr : Bool) (w : Nat) (x y s : Word) : Word :=
  if isFshr = true then x <<< ((BitVec.ofNat 32 w - s) &&& 31) ||| y >>> (s &&& 31)
  else x <<< (s &&& 31) ||| (if w < 32 then extendLow false w y else y) >>> ((BitVec.ofNat 32 w - s) &&& 31)

/-- The word `cgFunnelWord` leaves. -/
def funnelWord (isFshr : Bool) (w : Nat) (x y c : Word) : Word :=
  if funnelAmount w c = 0 then (if isFshr = true then y else x)
  else if w < 32 then extendLow false w (funnelJoin isFshr w x y (funnelAmount w c)) else funnelJoin isFshr w x y (funnelAmount w c)

/-- The bits above the low ones do not matter: no such bit of the operand that is shifted to the right comes down on a bit that is clear. At
32 bits, an amount that is a multiple of the width is 0, or the operands are such that both together are the result. -/
def FunnelAgrees (isFshr : Bool) (w : Nat) (x y c : Word) : Prop :=
  if w = 32 then c ≠ 0 → c.toNat % 32 = 0 → x ||| y = if isFshr = true then y else x
  else isFshr = true → ∀ k < c.toNat % w, y.getLsbD (w + k) = true → x.getLsbD k = true

namespace FunnelAux

variable {w s : Nat}

/-- A left funnel shift by less than the width. -/
theorem fshl_bits (hw : w ≤ 32) (hpos : 0 < s) (hs : s < w) (x y : Word) :
    (x <<< s ||| extendLow false w y >>> (w - s)).setWidth w = ((x.setWidth w ++ y.setWidth w) <<< s).extractLsb' w w := by
  apply BitVec.eq_of_getLsbD_eq
  intro i hi
  simp only [BitVec.getLsbD_setWidth, BitVec.getLsbD_or, BitVec.getLsbD_shiftLeft, BitVec.getLsbD_ushiftRight, extendLow,
    BitVec.getLsbD_extractLsb', BitVec.getLsbD_append]
  by_cases hlt : i < s
  · have h2 : w - s + i < 32 := by omega
    have h3 : w + i - s = w - s + i := by omega
    have h4 : w - s + i < w := by omega
    have h6 : ¬w + i < s := by omega
    simp [hlt, hi, h2, h3, h4, h6]
  · have h1 : ¬w + i - s < w := by omega
    have h2 : ¬w - s + i < w := by omega
    have h3 : w + i - s - w = i - s := by omega
    have h4 : i - s < w := by omega
    have h5 : i < 32 := by omega
    have h6 : ¬w + i < s := by omega
    simp [hlt, hi, h1, h2, h3, h4, h5, h6]

/-- A right funnel shift by less than the width, where no bit above the low ones comes down on a clear bit. -/
theorem fshr_bits_iff (hw : w ≤ 32) (hs : s < w) (x y : Word) :
    (x <<< (w - s) ||| y >>> s).setWidth w = ((x.setWidth w ++ y.setWidth w) >>> s).setWidth w ↔
      ∀ k < s, y.getLsbD (w + k) = true → x.getLsbD k = true := by
  have hcode : ∀ i < w, ((x <<< (w - s) ||| y >>> s).setWidth w).getLsbD i =
      if i < w - s then y.getLsbD (s + i) else x.getLsbD (i - (w - s)) || y.getLsbD (s + i) := by
    intro i hi
    simp only [BitVec.getLsbD_setWidth, BitVec.getLsbD_or, BitVec.getLsbD_shiftLeft, BitVec.getLsbD_ushiftRight, hi, decide_true, Bool.true_and]
    have h32 : i < 32 := by omega
    by_cases hlt : i < w - s
    · simp [hlt]
    · simp [hlt, h32]
  have hspec : ∀ i < w, (((x.setWidth w ++ y.setWidth w) >>> s).setWidth w).getLsbD i =
      if i < w - s then y.getLsbD (s + i) else x.getLsbD (i - (w - s)) := by
    intro i hi
    simp only [BitVec.getLsbD_setWidth, BitVec.getLsbD_ushiftRight, BitVec.getLsbD_append, hi, decide_true, Bool.true_and]
    by_cases hlt : i < w - s
    · have h1 : s + i < w := by omega
      simp [hlt, h1]
    · have h1 : ¬s + i < w := by omega
      have h2 : s + i - w = i - (w - s) := by omega
      have h3 : i - (w - s) < w := by omega
      simp [hlt, h1, h2, h3]
  constructor
  · intro heq k hk hbit
    have hi : w - s + k < w := by omega
    have hsame := congrArg (fun z => BitVec.getLsbD z (w - s + k)) heq
    have h1 : ¬w - s + k < w - s := by omega
    have h2 : w - s + k - (w - s) = k := by omega
    have h3 : s + (w - s + k) = w + k := by omega
    simp only [hcode _ hi, hspec _ hi, if_neg h1, h2, h3, hbit, Bool.or_true] at hsame
    exact hsame.symm
  · intro hall
    apply BitVec.eq_of_getLsbD_eq
    intro i hi
    rw [hcode i hi, hspec i hi]
    by_cases hlt : i < w - s
    · rw [if_pos hlt, if_pos hlt]
    · rw [if_neg hlt, if_neg hlt]
      have hk : i - (w - s) < s := by omega
      have hplace : w + (i - (w - s)) = s + i := by omega
      have hbit := hall _ hk
      rw [hplace] at hbit
      cases hy : y.getLsbD (s + i) with
      | true => rw [hbit hy, Bool.or_true]
      | false => rw [Bool.or_false]

/-- The amount is reduced modulo the width. -/
theorem toNat_funnelAmount {j : Nat} (hj : j < 5) (c : Word) : (funnelAmount (2 ^ j) c).toNat = c.toNat % 2 ^ j := by
  have hpow : 2 ^ j < 2 ^ 5 := Nat.pow_lt_pow_right (by decide) hj
  have hpos := Nat.two_pow_pos j
  have hmask : (BitVec.ofNat 32 (2 ^ j - 1)).toNat = 2 ^ j - 1 := by
    rw [BitVec.toNat_ofNat]
    omega
  rw [funnelAmount, if_pos (by omega), BitVec.toNat_and, hmask, Nat.and_two_pow_sub_one_eq_mod]

/-- What the machine shifts by. -/
theorem toNat_shiftedBy (s : Word) : (s &&& 31).toNat = s.toNat % 32 := by
  have h31 : (31 : Word).toNat = 2 ^ 5 - 1 := rfl
  rw [BitVec.toNat_and, h31, Nat.and_two_pow_sub_one_eq_mod]

theorem toNat_sub_amount {s : Word} (hw : w ≤ 32) (hs : s.toNat ≤ w) : (BitVec.ofNat 32 w - s).toNat = w - s.toNat := by
  have hof : (BitVec.ofNat 32 w).toNat = w := by
    rw [BitVec.toNat_ofNat]
    omega
  rw [BitVec.toNat_sub_of_le (by rw [BitVec.le_def, hof]; exact hs), hof]

/-- Shifts by an amount that is neither 0 nor the width. -/
theorem setWidth_funnelJoin_iff (isFshr : Bool) (hw : w ≤ 32) (x y : Word) {s p q : Word} (hpos : 0 < s.toNat) (hs : s.toNat < w)
    (hp : p.toNat = s.toNat) (hq : q.toNat = w - s.toNat) :
    (if isFshr = true then x <<< q ||| y >>> p else x <<< p ||| extendLow false w y >>> q).setWidth w =
      (if isFshr = true then ((x.setWidth w ++ y.setWidth w) >>> s.toNat).setWidth w
        else ((x.setWidth w ++ y.setWidth w) <<< s.toNat).extractLsb' w w) ↔
      (isFshr = true → ∀ k < s.toNat, y.getLsbD (w + k) = true → x.getLsbD k = true) := by
  cases isFshr with
  | true =>
    rw [if_pos rfl, if_pos rfl, BitVec.shiftLeft_eq', BitVec.ushiftRight_eq', hp, hq, fshr_bits_iff hw hs]
    exact ⟨fun h _ => h, fun h => h rfl⟩
  | false =>
    rw [if_neg Bool.false_ne_true, if_neg Bool.false_ne_true, BitVec.shiftLeft_eq', BitVec.ushiftRight_eq', hp, hq, fshl_bits hw hpos hs]
    exact iff_of_true rfl nofun

/-- Both halves of an amount of 0. -/
theorem funnelEval_zero (isFshr : Bool) {c : BitVec w} (h : c.toNat % w = 0) (a b : BitVec w) :
    funnelEval isFshr a b c = if isFshr = true then b else a := by
  unfold funnelEval
  rw [h, BitVec.ushiftRight_zero, BitVec.shiftLeft_zero, BitVec.setWidth_append_eq_right, BitVec.extractLsb'_append_eq_left]

/-- At a narrow width. -/
theorem setWidth_funnelWord_narrow (isFshr : Bool) {j : Nat} (hj : j < 5) (x y c : Word) :
    (funnelWord isFshr (2 ^ j) x y c).setWidth (2 ^ j) = funnelEval isFshr (x.setWidth (2 ^ j)) (y.setWidth (2 ^ j)) (c.setWidth (2 ^ j)) ↔
      FunnelAgrees isFshr (2 ^ j) x y c := by
  have hpow : 2 ^ j < 2 ^ 5 := Nat.pow_lt_pow_right (by decide) hj
  have hw : 2 ^ j ≤ 32 := by omega
  have hlt : 2 ^ j < 32 := by omega
  have hne : 2 ^ j ≠ 32 := by omega
  have hamount := toNat_funnelAmount hj c
  have hmod : (c.setWidth (2 ^ j)).toNat % 2 ^ j = c.toNat % 2 ^ j := by
    have hdvd : 2 ^ j ∣ 2 ^ 2 ^ j := Nat.pow_dvd_pow 2 (Nat.le_of_lt Nat.lt_two_pow_self)
    rw [BitVec.toNat_setWidth, Nat.mod_mod_of_dvd _ hdvd]
  unfold funnelWord FunnelAgrees
  rw [if_neg hne]
  by_cases hzero : funnelAmount (2 ^ j) c = 0
  · have hnat : c.toNat % 2 ^ j = 0 := by
      rw [← hamount, hzero]
      rfl
    rw [if_pos hzero, funnelEval_zero isFshr (hmod.trans hnat), hnat]
    refine iff_of_true ?_ (fun _ k hk => absurd hk (Nat.not_lt_zero k))
    cases isFshr <;> rfl
  · have hpos : 0 < (funnelAmount (2 ^ j) c).toNat := by
      refine Nat.pos_of_ne_zero fun h => hzero ?_
      exact BitVec.eq_of_toNat_eq h
    have hs : (funnelAmount (2 ^ j) c).toNat < 2 ^ j := by
      rw [hamount]
      exact Nat.mod_lt _ (Nat.two_pow_pos j)
    have hp : (funnelAmount (2 ^ j) c &&& 31).toNat = (funnelAmount (2 ^ j) c).toNat := by
      rw [toNat_shiftedBy]
      omega
    have hq : ((BitVec.ofNat 32 (2 ^ j) - funnelAmount (2 ^ j) c) &&& 31).toNat = 2 ^ j - (funnelAmount (2 ^ j) c).toNat := by
      rw [toNat_shiftedBy, toNat_sub_amount hw (Nat.le_of_lt hs)]
      omega
    rw [if_neg hzero, if_pos hlt, setWidth_extendLow hw, funnelJoin, if_pos hlt, funnelEval, hmod, ← hamount]
    exact setWidth_funnelJoin_iff isFshr hw x y hpos hs hp hq

/-- At 32 bits. -/
theorem setWidth_funnelWord_word (isFshr : Bool) (x y c : Word) :
    (funnelWord isFshr 32 x y c).setWidth 32 = funnelEval isFshr (x.setWidth 32) (y.setWidth 32) (c.setWidth 32) ↔
      FunnelAgrees isFshr 32 x y c := by
  have hno : ¬32 < 32 := Nat.lt_irrefl 32
  have hc := c.isLt
  have hq : ((BitVec.ofNat 32 32 - c) &&& 31).toNat = (32 - c.toNat % 32) % 32 := by
    rw [toNat_shiftedBy, BitVec.toNat_sub, BitVec.toNat_ofNat]
    omega
  unfold funnelWord FunnelAgrees funnelAmount
  rw [if_pos rfl, if_neg hno, if_neg hno, BitVec.setWidth_eq, BitVec.setWidth_eq, BitVec.setWidth_eq, BitVec.setWidth_eq]
  by_cases hzero : c = 0
  · have hnat : c.toNat % 32 = 0 := by
      rw [hzero]
      rfl
    rw [if_pos hzero, funnelEval_zero isFshr hnat]
    exact iff_of_true rfl fun hne => absurd hzero hne
  · rw [if_neg hzero]
    by_cases hmul : c.toNat % 32 = 0
    · -- both shifts are by 0
      have hp0 : (c &&& 31).toNat = 0 := (toNat_shiftedBy c).trans hmul
      have hq0 : ((BitVec.ofNat 32 32 - c) &&& 31).toNat = 0 := by
        rw [hq, hmul]
      have hjoin : funnelJoin isFshr 32 x y c = x ||| y := by
        unfold funnelJoin
        rw [if_neg hno, BitVec.shiftLeft_eq', BitVec.ushiftRight_eq', BitVec.shiftLeft_eq', BitVec.ushiftRight_eq', hp0, hq0]
        cases isFshr <;> simp
      rw [hjoin, funnelEval_zero isFshr hmul]
      exact ⟨fun h _ _ => h, fun h => h hzero hmul⟩
    · have hpos : 0 < (c &&& 31).toNat := by
        rw [toNat_shiftedBy]
        omega
      have hs : (c &&& 31).toNat < 32 := by
        rw [toNat_shiftedBy]
        omega
      have hq' : ((BitVec.ofNat 32 32 - c) &&& 31).toNat = 32 - (c &&& 31).toNat := by
        rw [hq, toNat_shiftedBy]
        omega
      have hiff := setWidth_funnelJoin_iff isFshr (Nat.le_refl 32) x y hpos hs rfl hq'
      rw [extendLow_self, BitVec.setWidth_eq, BitVec.setWidth_eq, BitVec.setWidth_eq, toNat_shiftedBy] at hiff
      rw [funnelJoin, if_neg hno, funnelEval, hiff]
      refine iff_of_true (fun _ k _ hbit => ?_) (fun _ h => absurd h hmul)
      rw [BitVec.getLsbD_of_ge _ _ (Nat.le_add_right 32 k)] at hbit
      nomatch hbit

end FunnelAux

/-! ## Code -/

/-- The two shifts as a script, with the operands as sources and the amount in `s`. -/
def funnelShifts (isFshr : Bool) (w : Nat) (s : RegName) : List ScriptInst :=
  (if isFshr = true then [.op (.alu .shr (.tmp 1) (.src 1) s)] else [.op (.alu .shl (.tmp 0) (.src 0) s)]) ++
  [.load .scratch (BitVec.ofNat 32 w), .op (.alu .sub (.tmp 2) .scratch s)] ++
  (if isFshr = true then [.op (.alu .shl (.tmp 0) (.src 0) (.tmp 2))]
    else if w < 32 then [.load .scratch (lowMask 32 w), .op (.alu .and (.tmp 1) (.src 1) .scratch),
      .op (.alu .shr (.tmp 1) (.tmp 1) (.tmp 2))]
    else [.op (.alu .shr (.tmp 1) (.src 1) (.tmp 2))])

/-- They are different from the registers the shifts write. -/
def AmountName (s : RegName) : Prop := s ≠ .scratch ∧ s ≠ .tmp 0 ∧ s ≠ .tmp 1 ∧ s ≠ .tmp 2

theorem wp_cgFunnelShifts (isFshr : Bool) (w : Nat) (srcs : List Byte) (n : Nat) (s : RegName) {Q : Unit → Cg → Prop}
    {E : CgError → Cg → Prop} {cg : Cg} : Exec.wp (cgFunnelShifts isFshr w (RegName.reg srcs n (.src 0)) (RegName.reg srcs n (.src 1))
      (RegName.reg srcs n s) (RegName.reg srcs n (.tmp 0)) (RegName.reg srcs n (.tmp 1)) (RegName.reg srcs n (.tmp 2))) Q E cg ↔
      Q () (cg.emit (scriptWords (RegName.reg srcs n) (funnelShifts isFshr w s))) := by
  have hscratch : RegName.reg srcs n .scratch = cgRegScratch := rfl
  cases isFshr with
  | true => simp [cgFunnelShifts, funnelShifts, scriptWords, ScriptInst.words, BlockInst.word, cgMoviScratch, hscratch]
  | false =>
    by_cases hw : w < 32
    · simp [cgFunnelShifts, cgFunnelMask, funnelShifts, scriptWords, ScriptInst.words, BlockInst.word, cgMoviScratch, hscratch, hw]
    · simp [cgFunnelShifts, funnelShifts, scriptWords, ScriptInst.words, BlockInst.word, cgMoviScratch, hscratch, hw]

theorem funnelShifts_ok (isFshr : Bool) (w : Nat) {m k : Nat} {s : RegName} (hm : 2 ≤ m) (hk : 3 ≤ k) (hs : s.ok m k = true) :
    (funnelShifts isFshr w s).all (ScriptInst.ok m k) = true := by
  have hm₀ : 0 < m := by omega
  have hm₁ : 1 < m := by omega
  have hk₀ : 0 < k := by omega
  have hk₁ : 1 < k := by omega
  have hk₂ : 2 < k := by omega
  cases isFshr with
  | true => simpa [funnelShifts, ScriptInst.ok, BlockInst.ok, RegName.ok, aluOp, hm₀, hm₁, hk₀, hk₁, hk₂] using hs
  | false =>
    by_cases hw : w < 32
    · simpa [funnelShifts, ScriptInst.ok, BlockInst.ok, RegName.ok, aluOp, hm₀, hm₁, hk₀, hk₁, hk₂, hw] using hs
    · simpa [funnelShifts, ScriptInst.ok, BlockInst.ok, RegName.ok, aluOp, hm₀, hm₁, hk₀, hk₁, hk₂, hw] using hs

/-- The amount stays as it is. -/
theorem evalScript_funnelShifts_amount (isFshr : Bool) (w : Nat) {s : RegName} (hs : AmountName s) (e : RegName → Word) :
    evalScript (funnelShifts isFshr w s) e s = e s := by
  obtain ⟨h₁, h₂, h₃, h₄⟩ := hs
  cases isFshr with
  | true => simp [funnelShifts, evalScript, ScriptInst.eval, BlockInst.eval, Function.update, h₁, h₂, h₃, h₄]
  | false =>
    by_cases hw : w < 32
    · simp [funnelShifts, evalScript, ScriptInst.eval, BlockInst.eval, Function.update, h₁, h₂, h₃, h₄, hw]
    · simp [funnelShifts, evalScript, ScriptInst.eval, BlockInst.eval, Function.update, h₁, h₂, h₃, h₄, hw]

theorem evalScript_funnelShifts (isFshr : Bool) (w : Nat) {s : RegName} (hs : AmountName s) (e : RegName → Word) :
    evalScript (funnelShifts isFshr w s) e (.tmp 0) ||| evalScript (funnelShifts isFshr w s) e (.tmp 1) =
      funnelJoin isFshr w (e (.src 0)) (e (.src 1)) (e s) := by
  obtain ⟨h₁, h₂, h₃, h₄⟩ := hs
  cases isFshr with
  | true => simp [funnelShifts, evalScript, ScriptInst.eval, BlockInst.eval, Function.update, funnelJoin, h₁, h₃, aluOp]
  | false =>
    by_cases hw : w < 32
    · simp [funnelShifts, evalScript, ScriptInst.eval, BlockInst.eval, Function.update, funnelJoin, h₁, h₂, aluOp, hw, and_lowMask, extendLow]
    · simp [funnelShifts, evalScript, ScriptInst.eval, BlockInst.eval, Function.update, funnelJoin, h₁, h₂, aluOp, hw]

/-- A register that is written before and after another one. -/
theorem Frame.setReg_shadow {f : Frame κ W} {r r' : Byte} (v k v' : Word) :
    ((f.setReg r v).setReg r' k).setReg r v' = (f.setReg r' k).setReg r v' := by
  have hregs : Function.update (Function.update (Function.update f.regs r v) r' k) r v' = Function.update (Function.update f.regs r' k) r v' := by
    funext x
    by_cases hx : x = r
    · rw [hx, Function.update_self, Function.update_self]
    · rw [Function.update_of_ne hx, Function.update_of_ne hx]
      by_cases hx' : x = r'
      · rw [hx', Function.update_self, Function.update_self]
      · rw [Function.update_of_ne hx', Function.update_of_ne hx', Function.update_of_ne hx]
  simp only [Frame.setReg, hregs]

section code

variable {img : Image κ} (host : Host κ W) {cg cg₁ : Cg} {f f₁ : Frame κ W} {dst : Byte} {w : Nat}

variable (hcode : img.code.length = img.codeCount.toNat)
include hcode

/-- The operand instead of the result, if the amount is 0. -/
theorem runs_fixup {s z fixup : Byte} {v : Word} (hs : s ≠ dst) (hz : z ≠ dst) (hfix : fixup ≠ dst) (hzero : f.regs z = 0) :
    RunsTo img host (skipIfNe s z [encR .mov dst fixup 0]) (f.setReg dst v)
      (f.setReg dst (if f.regs s = 0 then f.regs fixup else v)) := by
  have hmov := runs_mov (f := f.setReg dst v) host hcode dst fixup 0
  rw [Frame.setReg_of_ne _ _ hfix, Frame.setReg_setReg] at hmov
  refine runs_skipIfNe hcode (Nat.le_of_ble_eq_true rfl) (fun heq => ?_) (fun hne => ?_)
  · rw [Frame.setReg_of_ne _ _ hs, Frame.setReg_of_ne _ _ hz, hzero] at heq
    rwa [if_pos heq]
  · rw [Frame.setReg_of_ne _ _ hs, Frame.setReg_of_ne _ _ hz, hzero] at hne
    rw [if_neg hne]

/-- `cgFunnelResult` -/
theorem wp_cgFunnelResult (hok : cg.Ok) (hprep : Prepares img host cg f cg₁ f₁) (hzero : f.regs cgRegZero = 0)
    (hdst : dst.toNat < cg.nextReg) {p q s fixup : Byte} (hs : Held s cg₁.nextReg) (hfix : Held fixup cg₁.nextReg) (hsne : s ≠ dst)
    (hfixne : fixup ≠ dst) : Exec.wp (cgFunnelResult w p q s fixup dst) (fun _ => Defines img host cg f dst
      (if f₁.regs s = 0 then f₁.regs fixup
        else if w < 32 then extendLow false w (f₁.regs p ||| f₁.regs q) else f₁.regs p ||| f₁.regs q)) (fun e _ => e.OfOperand) cg₁ := by
  have hok₁ := hprep.ok hok
  have hnext := hprep.next_le
  have hz : f₁.regs cg₁.zeroReg = 0 := by rw [hok₁.zero, hprep.regs (Or.inr rfl), hzero]
  have hdst254 : dst ≠ cgRegScratch := Held.ne_r254 (Or.inl hdst) hok.next_le
  have hzne : cg₁.zeroReg ≠ dst := by
    rintro rfl
    rw [hok₁.zero] at hdst
    have hle := hok.next_le
    have h253 : cgRegZero.toNat = 253 := rfl
    have h252 : cgMaxEmitReg = 252 := rfl
    omega
  have hor := runs_alu (f := f₁) host hcode (rfl : aluOp .or = some _) dst p q
  unfold cgFunnelResult
  by_cases hw : w < 32
  · simp only [Exec.when, hw, if_true, cgFunnelMask, cgMoviScratch, Exec.wp_bind, wp_cgEmit, wp_cgEmitLoadConst32, Exec.wp_get, Cg.emit_emit]
    have hmask : RunsTo img host (maskWords w dst dst) (f₁.setReg dst (f₁.regs p ||| f₁.regs q)) _ := runs_maskWords host hcode hdst254
    rw [Frame.setReg_same, Frame.setReg_shadow] at hmask
    have hfixup := runs_fixup (f := f₁.setReg cgRegScratch (lowMask 32 w)) host hcode hsne hzne hfixne
      (v := extendLow false w (f₁.regs p ||| f₁.regs q)) (by rw [Frame.setReg_of_ne _ _ (Held.ne_r254 (Or.inr hok₁.zero) hnext), hz])
    rw [Frame.setReg_of_ne _ _ (hs.ne_r254 hnext), Frame.setReg_of_ne _ _ (hfix.ne_r254 hnext)] at hfixup
    have hdef := (Defines.of_runs_scratch hnext ((hor.append hcode hmask).append hcode hfixup)).after hcode hprep
    simp only [maskWords, List.append_assoc] at hdef ⊢
    exact hdef
  · simp only [Exec.when, hw, if_false, Exec.wp_bind, wp_cgEmit, Exec.wp_pure, Exec.wp_get, Cg.emit_emit]
    have hfixup := runs_fixup (f := f₁) host hcode hsne hzne hfixne (v := f₁.regs p ||| f₁.regs q) hz
    exact (Defines.of_runs hnext (hor.append hcode hfixup)).after hcode hprep

/-- The shifts and what follows them. -/
theorem wp_funnelRest (hok : cg.Ok) (hprep : Prepares img host cg f cg₁ f₁) (hzero : f.regs cgRegZero = 0) (hdst : dst.toNat < cg.nextReg)
    (isFshr : Bool) {a b c : Byte} (hsrcs : ∀ r ∈ [a, b, c], Held r cg₁.nextReg) (hane : a ≠ dst) (hbne : b ≠ dst) {k : Nat} (hk : 3 ≤ k)
    (hnext : cg₁.nextReg + k ≤ cgMaxEmitReg + 1) (pre : List ScriptInst) (hpre : pre.all (ScriptInst.ok 3 k) = true) {s : RegName}
    (hs : s.ok 3 k = true) (hname : AmountName s) (hsne : s.reg [a, b, c] cg₁.nextReg ≠ dst) {wc : Word}
    (hleft : ∀ e : RegName → Word, evalScript pre e (.src 0) = e (.src 0)) (hright : ∀ e : RegName → Word, evalScript pre e (.src 1) = e (.src 1))
    (hamount : ∀ e : RegName → Word, e (.src 2) = wc → evalScript pre e s = funnelAmount w wc) (hc : f₁.regs c = wc) :
    Exec.wp (cgFunnelShifts isFshr w a b (s.reg [a, b, c] cg₁.nextReg) (BitVec.ofNat 8 (cg₁.nextReg + 0)) (BitVec.ofNat 8 (cg₁.nextReg + 1))
        (BitVec.ofNat 8 (cg₁.nextReg + 2)) >>= fun _ => cgFunnelResult w (BitVec.ofNat 8 (cg₁.nextReg + 0))
          (BitVec.ofNat 8 (cg₁.nextReg + 1)) (s.reg [a, b, c] cg₁.nextReg) (if isFshr = true then b else a) dst)
      (fun _ => Defines img host cg f dst (funnelWord isFshr w (f₁.regs a) (f₁.regs b) wc)) (fun e _ => e.OfOperand)
      (cg₁.extend (scriptWords (RegName.reg [a, b, c] cg₁.nextReg) pre) k) := by
  obtain ⟨hscratch, h₀, h₁, h₂⟩ := hname
  have hshifts := funnelShifts_ok isFshr w (m := 3) (by decide) hk hs
  obtain ⟨f₂, hprep₂, hreads⟩ := prepares_script (f := f₁) host hcode hsrcs hnext (pre ++ funnelShifts isFshr w s)
    (by rw [List.all_append, Bool.and_eq_true]; exact ⟨hpre, hshifts⟩)
  have hall := hprep.trans hcode hprep₂
  have hwords : scriptWords (RegName.reg [a, b, c] cg₁.nextReg) pre ++ scriptWords (RegName.reg [a, b, c] cg₁.nextReg) (funnelShifts isFshr w s) =
      scriptWords (RegName.reg [a, b, c] cg₁.nextReg) (pre ++ funnelShifts isFshr w s) := List.flatMap_append.symm
  have hsheld := RegName.held_reg hsrcs hnext hs hscratch
  have ha := hprep₂.regs (hsrcs a (by simp))
  have hb := hprep₂.regs (hsrcs b (by simp))
  have hs₂ : f₂.regs (s.reg [a, b, c] cg₁.nextReg) = funnelAmount w wc := by
    rw [hreads s hs, evalScript_append, evalScript_funnelShifts_amount isFshr w ⟨hscratch, h₀, h₁, h₂⟩]
    exact hamount _ hc
  have hjoin : f₂.regs (BitVec.ofNat 8 (cg₁.nextReg + 0)) ||| f₂.regs (BitVec.ofNat 8 (cg₁.nextReg + 1)) =
      funnelJoin isFshr w (f₁.regs a) (f₁.regs b) (funnelAmount w wc) := by
    have htmp₀ := hreads (.tmp 0) (decide_eq_true (show 0 < k by omega))
    have htmp₁ := hreads (.tmp 1) (decide_eq_true (show 1 < k by omega))
    rw [RegName.reg] at htmp₀ htmp₁
    rw [htmp₀, htmp₁, evalScript_append, evalScript_funnelShifts isFshr w ⟨hscratch, h₀, h₁, h₂⟩, hleft, hright, hamount _ hc]
    rfl
  have hfixheld : Held (if isFshr = true then b else a) (cg₁.nextReg + k) := by
    cases isFshr with
    | true => exact hprep₂.held (hsrcs b (by simp))
    | false => exact hprep₂.held (hsrcs a (by simp))
  have hresult := wp_cgFunnelResult (w := w) (p := BitVec.ofNat 8 (cg₁.nextReg + 0)) (q := BitVec.ofNat 8 (cg₁.nextReg + 1)) host hcode hok
    (hprep.trans hcode hprep₂) hzero hdst hsheld hfixheld hsne (by cases isFshr; exacts [hane, hbne])
  rw [hs₂, hjoin] at hresult
  rw [Exec.wp_bind]
  refine (wp_cgFunnelShifts isFshr w [a, b, c] cg₁.nextReg s).mpr ?_
  rw [Cg.extend_emit, hwords]
  cases isFshr with
  | true =>
    simp only [if_true, hb] at hresult
    exact hresult
  | false =>
    simp only [Bool.false_eq_true, if_false, ha] at hresult
    exact hresult

/-- The code of a funnel shift leaves its word. -/
theorem wp_cgFunnelWord (hok : cg.Ok) (hin : InFrame cg img f) (hzero : f.regs cgRegZero = 0) (isFshr : Bool) {x y z : Val}
    (hdst : dst.toNat < cg.nextReg) (hx : ApartFrom cg dst x) (hy : ApartFrom cg dst y) (hz : ApartFrom cg dst z) :
    Exec.wp (cgFunnelWord isFshr w x y z dst) (fun _ => Defines img host cg f dst
      (funnelWord isFshr w (operandWord cg f x) (operandWord cg f y) (operandWord cg f z))) (fun e _ => e.OfOperand) cg := by
  unfold cgFunnelWord
  refine wp_operandApart host hcode hok hin hdst hx fun a cg₁ f₁ hprep₁ ha hheld₁ hane => ?_
  have hok₁ := hprep₁.ok hok
  refine wp_operandApart host hcode hok₁ (hprep₁.inFrame hin) (Nat.lt_of_lt_of_le hdst hprep₁.next_ge) (hprep₁.apartFrom hy)
    fun b cg₂ f₂ hprep₂ hb hheld₂ hbne => ?_
  have hprep' := hprep₁.trans hcode hprep₂
  have hok₂ := hprep'.ok hok
  refine wp_operandApart host hcode hok₂ (hprep'.inFrame hin) (Nat.lt_of_lt_of_le hdst hprep'.next_ge) (hprep'.apartFrom hz)
    fun c cg₃ f₃ hprep₃ hc hheld₃ hcne => ?_
  have hprep := hprep'.trans hcode hprep₃
  have hok₃ := hprep.ok hok
  rw [hprep₁.operandWord_eq hok] at hb
  rw [hprep'.operandWord_eq hok] at hc
  have ha₃ := (hprep₃.regs (hprep₂.held hheld₁)).trans ((hprep₂.regs hheld₁).trans ha)
  have hb₃ := (hprep₃.regs hheld₂).trans hb
  have hsrcs : ∀ r ∈ [a, b, c], Held r cg₃.nextReg := by
    intro r hr
    simp only [List.mem_cons, List.not_mem_nil, or_false] at hr
    rcases hr with rfl | rfl | rfl
    · exact hprep₃.held (hprep₂.held hheld₁)
    · exact hprep₃.held hheld₂
    · exact hheld₃
  have hpool := hok₃.pool
  rw [← ha₃, ← hb₃]
  refine wp_extend (wp_allocNext hpool fun _ => wp_allocNext hpool fun _ => wp_allocNext hpool fun hroom => ?_)
  rw [Exec.wp_bind]
  by_cases hw : w < 32
  · rw [cgFunnelAmount, if_pos hw]
    refine wp_allocNext hpool fun hroom' => wp_loadNext (wp_emitNext ?_)
    have hnext : cg₃.nextReg + 4 ≤ cgMaxEmitReg + 1 := by omega
    refine wp_funnelRest (k := 4) (s := .tmp 3) host hcode hok hprep hzero hdst isFshr hsrcs hane hbne (by decide) hnext
      [.load .scratch (BitVec.ofNat 32 (w - 1)), .op (.alu .and (.tmp 3) (.src 2) .scratch)] rfl rfl (by simp [AmountName]) ?_ (fun e => ?_) (fun e => ?_)
      (fun e he => ?_) hc
    · intro heq
      have hnat := toNat_nextReg hroom'
      rw [RegName.reg] at heq
      rw [heq] at hnat
      have hge := hprep.next_ge
      omega
    · simp [evalScript, ScriptInst.eval, BlockInst.eval]
    · simp [evalScript, ScriptInst.eval, BlockInst.eval]
    · simp [evalScript, ScriptInst.eval, BlockInst.eval, aluOp, funnelAmount, hw, he]
  · rw [cgFunnelAmount, if_neg hw]
    have hnext : cg₃.nextReg + 3 ≤ cgMaxEmitReg + 1 := by omega
    refine wp_funnelRest (k := 3) (s := .src 2) host hcode hok hprep hzero hdst isFshr hsrcs hane hbne (Nat.le_refl 3) hnext [] rfl rfl
      (by simp [AmountName]) hcne (fun _ => rfl) (fun _ => rfl) (fun e he => ?_) hc
    rw [funnelAmount, if_neg hw]
    exact he

end code

end CronoVM
