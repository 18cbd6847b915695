import CronoVM.Lemmas.Narrow
import CronoVM.Lemmas.Scripts
import CronoVM.Lib.BitCount
import CronoVM.Translator.BitIntrinsics

/-!
# Intrinsics on bits

What the loops and the networks of the intrinsics on bits leave in the register of the result, and in how many steps.
-/

namespace CronoVM

open Checked Ir NarrowInt BitCount

variable {κ W : Type}

/-- Code that leaves `v` in `dst` after at most `n` steps. -/
def DefinesIn (img : Image κ) (host : Host κ W) (n : Nat) (cg : Cg) (f : Frame κ W) (dst : Byte) (v : Word) (cg' : Cg) : Prop :=
  ∃ ws m f', cg' = { cg with code := cg.code ++ ws, nextReg := m } ∧ RunsIn img host n ws f f' ∧ f'.regs dst = v

/-! ## Leading zeros -/

/-- A turn of the count of the bits of `x`. -/
def shiftTurn (x n one : RegName) : List ScriptInst := [.op (.alu .shr x x one), .op (.alu .add n n one)]

/-- Different names. -/
structure CountNames (x n one : RegName) : Prop where
  x_n : x ≠ n
  x_one : x ≠ one
  n_one : n ≠ one

theorem evalScript_shiftTurn {x n one : RegName} (hnames : CountNames x n one) {e : RegName → Word} (hone : e one = 1) (j : Nat) :
    (evalScript (shiftTurn x n one))^[j] e x = e x >>> j ∧
      (evalScript (shiftTurn x n one))^[j] e n = e n + BitVec.ofNat 32 j ∧
      ∀ y, y ≠ x → y ≠ n → (evalScript (shiftTurn x n one))^[j] e y = e y := by
  have hnx := hnames.x_n.symm
  have hox := hnames.x_one.symm
  have hon := hnames.n_one.symm
  induction j with
  | zero => exact ⟨(BitVec.ushiftRight_zero _).symm, (BitVec.add_zero _).symm, fun _ _ _ => rfl⟩
  | succ j ih =>
    obtain ⟨hx, hn, hrest⟩ := ih
    have hone' := (hrest one hox hon).trans hone
    rw [Function.iterate_succ_apply']
    generalize (evalScript (shiftTurn x n one))^[j] e = e' at hx hn hrest hone'
    refine ⟨?_, ?_, fun y hyx hyn => ?_⟩
    · simp [shiftTurn, evalScript, ScriptInst.eval, BlockInst.eval, aluOp, hone', hx, hnames.x_n, BitVec.shiftRight_add]
    · simp [shiftTurn, evalScript, ScriptInst.eval, BlockInst.eval, aluOp, hone', hn, hnx, hox, BitVec.ofNat_add, BitVec.add_assoc]
    · simp [shiftTurn, evalScript, ScriptInst.eval, BlockInst.eval, Function.update, hyx, hyn, hrest]

section loops

variable {img : Image κ} (host : Host κ W) {f : Frame κ W} {srcs : List Byte} {n k : Nat} {e : RegName → Word}

variable (hcode : img.code.length = img.codeCount.toNat)
include hcode

/-- The loop that counts the bits of `x`. -/
theorem runsIn_sizeLoop (hsrcs : ∀ r ∈ srcs, Held r n) (hnext : n + k ≤ cgMaxEmitReg + 1) {x c z : RegName} (one : RegName)
    (hnames : CountNames x c one) (hzx : z ≠ x) (hzc : z ≠ c) (hok : (shiftTurn x c one).all (ScriptInst.ok srcs.length k) = true)
    (hx : x.ok srcs.length k = true) (hz : z.ok srcs.length k = true) (hreads : Reads srcs n k f e) (hone : e one = 1) (hzero : e z = 0) :
    ∃ g e', RunsIn img host 129 (untilEq (x.reg srcs n) (z.reg srcs n) (scriptWords (RegName.reg srcs n) (shiftTurn x c one))) f g ∧
      f.AgreesOff (Scratch n) g ∧ Reads srcs n k g e' ∧ e' c = e c + BitVec.ofNat 32 (e x).toNat.size ∧
      ∀ y, y ≠ x → y ≠ c → e' y = e y := by
  have hturn := fun j => evalScript_shiftTurn hnames hone j
  have hz' : ∀ j, (evalScript (shiftTurn x c one))^[j] e z = 0#32 := fun j => ((hturn j).2.2 z hzx hzc).trans hzero
  obtain ⟨g, hloops, hag, hreads'⟩ := loops_script host hcode hsrcs hnext (shiftTurn x c one) (e x).toNat.size hok hx hz hreads
    (fun j hj => by
      rw [(hturn j).1, hz' j]
      exact fun h => absurd ((ushiftRight_eq_zero_iff _ _).mp h) (Nat.not_le_of_lt hj))
    (by
      rw [(hturn _).1, hz' _]
      exact (ushiftRight_eq_zero_iff _ _).mpr (Nat.le_refl _))
  have hsize : (e x).toNat.size ≤ 32 := Nat.size_le.mpr (e x).isLt
  have hrun := runsIn_untilEq hcode (Nat.le_of_ble_eq_true rfl) hloops
  refine ⟨g, _, hrun.mono ?_, hag, hreads', (hturn _).2.1, (hturn _).2.2⟩
  have hlen : (scriptWords (RegName.reg srcs n) (shiftTurn x c one)).length = 2 := rfl
  rw [hlen]
  omega

end loops

theorem ofNat_sub_ofNat {m n : Nat} (h : m ≤ n) (hn : n < 2 ^ 32) : BitVec.ofNat 32 n - BitVec.ofNat 32 m = BitVec.ofNat 32 (n - m) := by
  apply BitVec.eq_of_toNat_eq
  rw [BitVec.toNat_sub_of_le, BitVec.toNat_ofNat, BitVec.toNat_ofNat, BitVec.toNat_ofNat]
  · omega
  · rw [BitVec.le_def, BitVec.toNat_ofNat, BitVec.toNat_ofNat]
    omega

section counts

variable {img : Image κ} (host : Host κ W) {cg : Cg} {f : Frame κ W} {src dst : Byte}

theorem held_pair (hok : cg.Ok) (hsrc : Held src cg.nextReg) : ∀ r ∈ [src, cg.zeroReg], Held r cg.nextReg := by
  intro r hr
  simp only [List.mem_cons, List.not_mem_nil, or_false] at hr
  rcases hr with rfl | rfl
  · exact hsrc
  · exact Or.inr hok.zero

variable (hcode : img.code.length = img.codeCount.toNat)
include hcode

/-- `llvm.ctlz.i32` -/
theorem wp_cgCtlz32 (hok : cg.Ok) (hzero : f.regs cgRegZero = 0) (hsrc : Held src cg.nextReg) :
    Exec.wp (cgCtlz32 src dst) (fun _ => DefinesIn img host 200 cg f dst (BitVec.ofNat 32 (32 - (f.regs src).toNat.size)))
      (fun e _ => e.OfOperand) cg := by
  have hpool := hok.pool
  unfold cgCtlz32
  refine wp_extend (wp_allocNext hpool fun _ => wp_allocNext hpool fun _ => wp_allocNext hpool fun _ => wp_allocNext hpool fun hroom => ?_)
  refine wp_emitNext (wp_emitNext (wp_emitNext ?_))
  rw [Exec.wp_bind, Exec.wp_get]
  refine wp_emitNext (wp_emitNext (wp_emitNext (wp_emitNext (wp_emitNext ?_))))
  rw [wp_cgEmit]
  have hnext : cg.nextReg + 4 ≤ cgMaxEmitReg + 1 := by omega
  have hsrcs := held_pair hok hsrc
  obtain ⟨f₁, hrun₁, hag₁, hreads₁⟩ := runsIn_script (f := f) (k := 4) host hcode hsrcs hnext
    [.op (.mov (.tmp 0) (.src 0)), .op (.movi (.tmp 1) 0), .op (.movi (.tmp 2) 1)] rfl fun _ _ => rfl
  have hz : f.regs cg.zeroReg = 0 := by rw [hok.zero, hzero]
  obtain ⟨f₂, e₂, hrun₂, hag₂, hreads₂, hcount, hrest⟩ := runsIn_sizeLoop (x := .tmp 0) (c := .tmp 1) (z := .src 1) host hcode hsrcs
    hnext (.tmp 2) ⟨by decide, by decide, by decide⟩ (by decide) (by decide) rfl rfl rfl hreads₁ rfl hz
  obtain ⟨f₃, hrun₃, hag₃, hreads₃⟩ := runsIn_script host hcode hsrcs hnext [.op (.movi (.tmp 3) 32)] rfl hreads₂
  have hsub := steps_alu (f := f₃) host hcode (rfl : aluOp .sub = some _) dst (RegName.reg [src, cg.zeroReg] cg.nextReg (.tmp 3))
    (RegName.reg [src, cg.zeroReg] cg.nextReg (.tmp 1))
  have hsize : (f.regs src).toNat.size ≤ 32 := Nat.size_le.mpr (f.regs src).isLt
  have hall := ((hrun₁.append hcode hrun₂).append hcode hrun₃).append hcode (.of_steps hsub)
  refine ⟨_, cg.nextReg + 4, _, ?_, hall.mono ?_, ?_⟩
  · simp [Cg.extend, Cg.emit, scriptWords, ScriptInst.words, BlockInst.word, untilEq, skipIfEq, RegName.reg, shiftTurn]
  · exact Nat.le_of_ble_eq_true rfl
  · have hcount₁ : e₂ (.tmp 1) = BitVec.ofNat 32 (f.regs src).toNat.size := hcount.trans (BitVec.zero_add _)
    have hcount₃ : evalScript [.op (.movi (.tmp 3) 32)] e₂ (.tmp 1) = e₂ (.tmp 1) := rfl
    have hwide : evalScript [.op (.movi (.tmp 3) 32)] e₂ (.tmp 3) = BitVec.ofNat 32 32 := rfl
    rw [Frame.setReg_same, hreads₃ (.tmp 3) rfl, hreads₃ (.tmp 1) rfl, hcount₃, hcount₁, hwide]
    exact ofNat_sub_ofNat hsize (by decide)

end counts

/-! ## The mask of a narrow operand -/

/-- The registers of a count. -/
def countRegs (bits : Nat) : Nat := if bits < 32 then 5 else 4

/-- What comes before the loop of a count. -/
def countPre (bits : Nat) : List ScriptInst :=
  [.op (.mov (.tmp 0) (.src 0))] ++ (if bits < 32 then [.load (.tmp 4) (lowMask 32 bits), .op (.alu .and (.tmp 0) (.tmp 0) (.tmp 4))] else []) ++
    [.op (.movi (.tmp 1) 0), .op (.movi (.tmp 2) 1)]

theorem countPre_ok (bits : Nat) : (countPre bits).all (ScriptInst.ok 2 (countRegs bits)) = true := by
  unfold countPre countRegs
  split <;> rfl

theorem tmp_ok (bits : Nat) {j : Nat} (hj : j < 4) : (RegName.tmp j).ok 2 (countRegs bits) = true := by
  refine decide_eq_true (p := j < countRegs bits) ?_
  unfold countRegs
  split <;> omega

theorem length_countPre (ρ : RegName → Byte) (bits : Nat) : (scriptWords ρ (countPre bits)).length ≤ 6 := by
  unfold countPre
  split
  · have hload := length_loadConst32Words_le (ρ (.tmp 4)) (lowMask 32 bits)
    simp only [List.cons_append, List.nil_append, scriptWords, List.flatMap_cons, List.flatMap_nil, ScriptInst.words, List.length_append,
      List.length_cons, List.length_nil]
    omega
  · simp [scriptWords, ScriptInst.words]

/-- The loop starts with the low bits and with 0 and 1. -/
theorem evalScript_countPre {bits : Nat} (hbits : bits ≤ 32) (e : RegName → Word) :
    evalScript (countPre bits) e (.tmp 0) = extendLow false bits (e (.src 0)) ∧ evalScript (countPre bits) e (.tmp 1) = 0 ∧
      evalScript (countPre bits) e (.tmp 2) = 1 ∧ evalScript (countPre bits) e (.src 1) = e (.src 1) := by
  unfold countPre
  by_cases hlt : bits < 32
  · rw [if_pos hlt]
    simp [evalScript, ScriptInst.eval, BlockInst.eval, aluOp, and_lowMask, extendLow]
  · obtain rfl : bits = 32 := by omega
    rw [if_neg hlt, extendLow_self]
    simp [evalScript, ScriptInst.eval, BlockInst.eval]

/-- What follows the start of a count. -/
theorem wp_countPre {α : Type} {cg : Cg} (hpool : cg.freeList = []) {src z : Byte} {bits : Nat} {k : Byte → Byte → Byte → Byte → Emit α}
    {Q : α → Cg → Prop} (h : cg.nextReg + countRegs bits ≤ cgMaxEmitReg + 1 → Exec.wp (k (RegName.reg [src, z] cg.nextReg (.tmp 0))
      (RegName.reg [src, z] cg.nextReg (.tmp 1)) (RegName.reg [src, z] cg.nextReg (.tmp 2)) (RegName.reg [src, z] cg.nextReg (.tmp 3))) Q
        (fun e _ => e.OfOperand) (cg.extend (scriptWords (RegName.reg [src, z] cg.nextReg) (countPre bits)) (countRegs bits))) :
    Exec.wp (do
      let x ← cgAllocReg
      let n ← cgAllocReg
      let one ← cgAllocReg
      let t ← cgAllocReg
      cgEmit (encR .mov x src 0)
      cgMaskCount bits x
      cgEmit (encI16 .movi n 0)
      cgEmit (encI16 .movi one 1)
      k x n one t) Q (fun e _ => e.OfOperand) cg := by
  refine wp_extend (wp_allocNext hpool fun _ => wp_allocNext hpool fun _ => wp_allocNext hpool fun _ => wp_allocNext hpool fun hroom => ?_)
  refine wp_emitNext ?_
  rw [Exec.wp_bind]
  unfold countPre countRegs at h
  by_cases hlt : bits < 32
  · rw [if_pos hlt, if_pos hlt] at h
    rw [cgMaskCount, Exec.when, if_pos hlt]
    refine wp_allocNext hpool fun hroom' => wp_loadNext ?_
    rw [wp_cgEmit, Cg.extend_emit]
    refine wp_emitNext (wp_emitNext ?_)
    have hwp := h (by omega)
    simp only [List.cons_append, List.nil_append, scriptWords, List.flatMap_cons, List.flatMap_nil, ScriptInst.words, List.append_assoc,
      BlockInst.word, RegName.reg] at hwp ⊢
    exact hwp
  · rw [if_neg hlt, if_neg hlt] at h
    rw [cgMaskCount, Exec.when, if_neg hlt, Exec.wp_pure]
    refine wp_emitNext (wp_emitNext ?_)
    exact h (by omega)

/-! ## Bits that are set -/

/-- A turn of the count of the set bits. -/
def clearTurn : List ScriptInst :=
  [.op (.alu .sub (.tmp 3) (.tmp 0) (.tmp 2)), .op (.alu .and (.tmp 0) (.tmp 0) (.tmp 3)), .op (.alu .add (.tmp 1) (.tmp 1) (.tmp 2))]

theorem evalScript_clearTurn {e : RegName → Word} (hone : e (.tmp 2) = 1) (j : Nat) :
    (evalScript clearTurn)^[j] e (.tmp 0) = clearLowest^[j] (e (.tmp 0)) ∧
      (evalScript clearTurn)^[j] e (.tmp 1) = e (.tmp 1) + BitVec.ofNat 32 j ∧ (evalScript clearTurn)^[j] e (.tmp 2) = 1 ∧
      (evalScript clearTurn)^[j] e (.src 1) = e (.src 1) := by
  induction j with
  | zero => exact ⟨rfl, (BitVec.add_zero _).symm, hone, rfl⟩
  | succ j ih =>
    obtain ⟨hx, hn, hone', hz⟩ := ih
    rw [Function.iterate_succ_apply', Function.iterate_succ_apply', clearLowest, ← hx]
    generalize (evalScript clearTurn)^[j] e = e' at hx hn hone' hz
    refine ⟨?_, ?_, ?_, ?_⟩
    · simp [clearTurn, evalScript, ScriptInst.eval, BlockInst.eval, aluOp, hone']
    · simp [clearTurn, evalScript, ScriptInst.eval, BlockInst.eval, aluOp, hone', hn, BitVec.ofNat_add, BitVec.add_assoc]
    · simp [clearTurn, evalScript, ScriptInst.eval, BlockInst.eval, hone']
    · simp [clearTurn, evalScript, ScriptInst.eval, BlockInst.eval, hz]

section setBits

variable {img : Image κ} (host : Host κ W) {cg : Cg} {f : Frame κ W} {src dst : Byte}

variable (hcode : img.code.length = img.codeCount.toNat)
include hcode

/-- `llvm.ctpop.iN` -/
theorem wp_cgCtpop (hok : cg.Ok) (hzero : f.regs cgRegZero = 0) (hsrc : Held src cg.nextReg) {bits : Nat} (hbits : bits ≤ 32) :
    Exec.wp (cgCtpop bits src dst) (fun _ => DefinesIn img host 200 cg f dst (BitVec.ofNat 32 ((f.regs src).setWidth bits).cpop.toNat))
      (fun e _ => e.OfOperand) cg := by
  have hsrcs := held_pair hok hsrc
  have hz : f.regs cg.zeroReg = 0 := by rw [hok.zero, hzero]
  unfold cgCtpop
  refine wp_countPre (z := cg.zeroReg) hok.pool fun hnext => ?_
  rw [Exec.wp_bind, Exec.wp_get]
  refine wp_emitNext (wp_emitNext (wp_emitNext (wp_emitNext (wp_emitNext ?_))))
  rw [wp_cgEmit]
  obtain ⟨f₁, hrun₁, hag₁, hreads₁⟩ := runsIn_script (f := f) host hcode hsrcs hnext _ (countPre_ok bits) fun _ _ => rfl
  obtain ⟨hx, hn, hone, hzero'⟩ := evalScript_countPre hbits fun x => f.regs (x.reg [src, cg.zeroReg] cg.nextReg)
  generalize evalScript (countPre bits) _ = e at hreads₁ hx hn hone hzero'
  have hturn := fun j => evalScript_clearTurn hone j
  have hz' : ∀ j, (evalScript clearTurn)^[j] e (.src 1) = 0#32 := fun j => ((hturn j).2.2.2.trans hzero').trans hz
  obtain ⟨f₂, hloops, hag₂, hreads₂⟩ := loops_script (x := .tmp 0) (z := .src 1) host hcode hsrcs hnext clearTurn (e (.tmp 0)).cpop.toNat
    (by unfold countRegs; split <;> rfl) (tmp_ok bits (by decide)) rfl hreads₁
    (fun j hj => by
      rw [(hturn j).1, hz' j]
      exact fun h => Nat.ne_of_lt hj ((clearLowest_iterate_eq_zero_iff _ (Nat.le_of_lt hj)).mp h))
    (by
      rw [(hturn _).1, hz' _]
      exact (clearLowest_iterate_eq_zero_iff _ (Nat.le_refl _)).mpr rfl)
  have hrun₂ := runsIn_untilEq hcode (Nat.le_of_ble_eq_true rfl) hloops
  have hmov := steps_mov (f := f₂) host hcode dst (RegName.reg [src, cg.zeroReg] cg.nextReg (.tmp 1)) 0
  have hcount : (e (.tmp 0)).cpop.toNat = ((f.regs src).setWidth bits).cpop.toNat := by
    rw [hx]
    exact toNat_cpop_setWidth _ hbits
  have hall := (hrun₁.append hcode hrun₂).append hcode (.of_steps hmov)
  refine ⟨_, cg.nextReg + countRegs bits, _, ?_, hall.mono ?_, ?_⟩
  · simp [Cg.extend, Cg.emit, scriptWords, ScriptInst.words, BlockInst.word, untilEq, skipIfEq, RegName.reg, clearTurn]
  · have hpre := length_countPre (RegName.reg [src, cg.zeroReg] cg.nextReg) bits
    have hle := BitVec.toNat_cpop_le (e (.tmp 0))
    have hlen : (scriptWords (RegName.reg [src, cg.zeroReg] cg.nextReg) clearTurn).length = 3 := rfl
    rw [hlen]
    omega
  · rw [Frame.setReg_same, hreads₂ (.tmp 1) (tmp_ok bits (by decide)), (hturn _).2.1, hn, ← hcount]
    exact BitVec.zero_add _

end setBits

/-! ## Trailing zeros -/

/-- The lowest bit of what is left. -/
def lowestBit : List ScriptInst := [.op (.alu .and (.tmp 3) (.tmp 0) (.tmp 2))]

/-- A turn of the count of the trailing zeros. -/
def trailingTurn : (RegName → Word) → RegName → Word := evalScript (shiftTurn (.tmp 0) (.tmp 1) (.tmp 2)) ∘ evalScript lowestBit

theorem iterate_trailingTurn {e : RegName → Word} (hone : e (.tmp 2) = 1) (j : Nat) : trailingTurn^[j] e (.tmp 0) = e (.tmp 0) >>> j ∧
    trailingTurn^[j] e (.tmp 1) = e (.tmp 1) + BitVec.ofNat 32 j ∧ trailingTurn^[j] e (.tmp 2) = 1 ∧
      trailingTurn^[j] e (.src 1) = e (.src 1) := by
  induction j with
  | zero => exact ⟨(BitVec.ushiftRight_zero _).symm, (BitVec.add_zero _).symm, hone, rfl⟩
  | succ j ih =>
    obtain ⟨hx, hn, hone', hz⟩ := ih
    rw [Function.iterate_succ_apply']
    generalize trailingTurn^[j] e = e' at hx hn hone' hz
    refine ⟨?_, ?_, ?_, ?_⟩
    · simp [trailingTurn, lowestBit, shiftTurn, evalScript, ScriptInst.eval, BlockInst.eval, aluOp, hone', hx, BitVec.shiftRight_add]
    · simp [trailingTurn, lowestBit, shiftTurn, evalScript, ScriptInst.eval, BlockInst.eval, aluOp, hone', hn, BitVec.ofNat_add, BitVec.add_assoc]
    · simp [trailingTurn, lowestBit, shiftTurn, evalScript, ScriptInst.eval, BlockInst.eval, hone']
    · simp [trailingTurn, lowestBit, shiftTurn, evalScript, ScriptInst.eval, BlockInst.eval, hz]

/-- The words of the loop. -/
def trailingWords (ρ : RegName → Byte) : List Word :=
  scriptWords ρ lowestBit ++
    (encBr .bne (ρ (.tmp 3)) (ρ (.src 1)) 4 :: (scriptWords ρ (shiftTurn (.tmp 0) (.tmp 1) (.tmp 2)) ++ [encI24 .jmp (-5)]))

theorem trailingWords_append (ρ : RegName → Byte) {us : List Word} (hus : us.length = 1) : trailingWords ρ ++ us =
    breakIfNe (ρ (.tmp 3)) (ρ (.src 1)) (scriptWords ρ lowestBit) (scriptWords ρ (shiftTurn (.tmp 0) (.tmp 1) (.tmp 2))) us := by
  obtain ⟨u, rfl⟩ := List.length_eq_one_iff.mp hus
  simp [trailingWords, breakIfNe, skipIfNe, scriptWords, ScriptInst.words, lowestBit, shiftTurn]

/-- The lowest bit of what is left is the next bit. -/
theorem and_one_eq_zero_iff (x : Word) (j : Nat) : x >>> j &&& 1 = 0#32 ↔ ¬x.getLsbD j = true := by
  have hone : (1 : Word).toNat = 2 ^ 1 - 1 := rfl
  rw [← BitVec.toNat_inj, BitVec.toNat_and, hone, Nat.and_two_pow_sub_one_eq_mod, BitVec.toNat_ushiftRight, Nat.shiftRight_eq_div_pow,
    BitVec.toNat_zero, BitVec.getLsbD, Nat.testBit_eq_decide_div_mod_eq, decide_eq_true_eq]
  omega

section trailing

variable {img : Image κ} (host : Host κ W) {cg : Cg} {f : Frame κ W} {src dst : Byte}

variable (hcode : img.code.length = img.codeCount.toNat)
include hcode

/-- The loop of `llvm.cttz.iN`, and the result for 0 behind it. -/
theorem runsIn_trailingLoop {srcs : List Byte} {n k : Nat} {e : RegName → Word} (hsrcs : ∀ r ∈ srcs, Held r n)
    (hnext : n + k ≤ cgMaxEmitReg + 1) (hz : (RegName.src 1).ok srcs.length k = true) (hk : 4 ≤ k) (hreads : Reads srcs n k f e)
    (hone : e (.tmp 2) = 1) (hn : e (.tmp 1) = 0) (hzero : e (.src 1) = 0) {bits : Nat} (hbits : bits ≤ 32) {x : BitVec bits}
    (hx : e (.tmp 0) = x.setWidth 32) : ∃ g, RunsIn img host 163
      (skipIfEq (RegName.reg srcs n (.tmp 0)) (RegName.reg srcs n (.src 1)) (trailingWords (RegName.reg srcs n)) ++
        [encI16 .movi (RegName.reg srcs n (.tmp 1)) (BitVec.ofNat 16 bits)]) f g ∧
      g.regs (RegName.reg srcs n (.tmp 1)) = BitVec.ofNat 32 x.ctz.toNat := by
  have htmp : ∀ {m j : Nat}, j < 4 → (RegName.tmp j).ok m k = true := fun {_ j} hj => decide_eq_true (show j < k by omega)
  have hlen : (trailingWords (RegName.reg srcs n)).length ≤ 127 := Nat.le_of_ble_eq_true rfl
  have hfirst := hreads (.tmp 0) (htmp (by decide))
  have hlast := hreads (.src 1) hz
  by_cases hx0 : x = 0#(bits)
  · -- the branch into the end of the loop
    have heq : f.regs (RegName.reg srcs n (.tmp 0)) = f.regs (RegName.reg srcs n (.src 1)) := by
      rw [hfirst, hlast, hx, hx0, hzero]
      exact BitVec.setWidth_zero _ _
    have hmovi := steps_movi (f := f) host hcode (RegName.reg srcs n (.tmp 1)) (BitVec.ofNat 16 bits)
    have hrun := runsIn_skipInto hcode hlen (fun hne => absurd heq hne)
      fun _ => RunsIn.of_steps hmovi
    refine ⟨_, hrun.mono (by decide), ?_⟩
    rw [Frame.setReg_same, hx0, toNat_ctz_zero]
    exact signExtend_ofNat (by omega)
  · have hcover : ∀ j, (x.setWidth 32).getLsbD j = x.getLsbD j := by
      intro j
      rw [BitVec.getLsbD_setWidth]
      by_cases hj : j < 32
      · rw [decide_eq_true hj, Bool.true_and]
      · rw [BitVec.getLsbD_of_ge x j (by omega), Bool.and_false]
    have hne : f.regs (RegName.reg srcs n (.tmp 0)) ≠ f.regs (RegName.reg srcs n (.src 1)) := by
      rw [hfirst, hlast, hx, hzero]
      intro (h : x.setWidth 32 = 0#32)
      have hbit := BitVec.getLsbD_true_ctz_of_ne_zero hx0
      rw [← hcover, h, BitVec.getLsbD_zero] at hbit
      nomatch hbit
    have hbit : ∀ j, evalScript lowestBit (trailingTurn^[j] e) (.tmp 3) = x.setWidth 32 >>> j &&& 1 := by
      intro j
      obtain ⟨hx', _, hone', _⟩ := iterate_trailingTurn hone j
      simp [lowestBit, evalScript, ScriptInst.eval, BlockInst.eval, aluOp, hx', hone', hx]
    have hz' : ∀ j, evalScript lowestBit (trailingTurn^[j] e) (.src 1) = 0#32 := fun j =>
      (iterate_trailingTurn hone j).2.2.2.trans hzero
    have hlt := toNat_ctz_lt hx0
    have hok₁ : lowestBit.all (ScriptInst.ok srcs.length k) = true := by
      simp [lowestBit, ScriptInst.ok, BlockInst.ok, aluOp, htmp]
    have hok₂ : (shiftTurn (.tmp 0) (.tmp 1) (.tmp 2)).all (ScriptInst.ok srcs.length k) = true := by
      simp [shiftTurn, ScriptInst.ok, BlockInst.ok, aluOp, htmp]
    obtain ⟨g, hbreaks, hag, hreads'⟩ := breaks_script (x := .tmp 3) (z := .src 1) host hcode hsrcs hnext lowestBit
      (shiftTurn (.tmp 0) (.tmp 1) (.tmp 2)) x.ctz.toNat hok₁ hok₂ (htmp (by decide)) hz hreads
      (fun j hj => by
        refine (hbit j).trans (((and_one_eq_zero_iff _ j).mpr ?_).trans (hz' j).symm)
        rw [hcover, getLsbD_iff_ctz hx0 (Nat.le_of_lt hj)]
        exact Nat.ne_of_lt hj)
      (by
        intro heq
        have hzero' := ((hbit x.ctz.toNat).symm.trans heq).trans (hz' x.ctz.toNat)
        rw [and_one_eq_zero_iff, hcover] at hzero'
        exact hzero' (BitVec.getLsbD_true_ctz_of_ne_zero hx0))
    have hbody : (scriptWords (RegName.reg srcs n) (shiftTurn (.tmp 0) (.tmp 1) (.tmp 2))).length + 1 +
        [encI16 .movi (RegName.reg srcs n (.tmp 1)) (BitVec.ofNat 16 bits)].length ≤ 127 := Nat.le_of_ble_eq_true rfl
    have hrun := runsIn_breakIfNe hcode hbody (Nat.le_of_ble_eq_true rfl) hbreaks
    rw [← trailingWords_append _ rfl] at hrun
    have hall := runsIn_skipInto hcode hlen (fun _ => hrun) fun heq => absurd heq hne
    refine ⟨g, hall.mono ?_, ?_⟩
    · have hlen₁ : (scriptWords (RegName.reg srcs n) lowestBit).length = 1 := rfl
      have hlen₂ : (scriptWords (RegName.reg srcs n) (shiftTurn (.tmp 0) (.tmp 1) (.tmp 2))).length = 2 := rfl
      rw [hlen₁, hlen₂]
      omega
    · rw [hreads' (.tmp 1) (htmp (by decide))]
      have hcount := (iterate_trailingTurn hone x.ctz.toNat).2.1
      rw [hn] at hcount
      exact hcount.trans (BitVec.zero_add _)

/-- `llvm.cttz.iN` -/
theorem wp_cgCttz (hok : cg.Ok) (hzero : f.regs cgRegZero = 0) (hsrc : Held src cg.nextReg) {bits : Nat} (hbits : bits ≤ 32) :
    Exec.wp (cgCttz bits src dst) (fun _ => DefinesIn img host 200 cg f dst (BitVec.ofNat 32 ((f.regs src).setWidth bits).ctz.toNat))
      (fun e _ => e.OfOperand) cg := by
  have hsrcs := held_pair hok hsrc
  have hz : f.regs cg.zeroReg = 0 := by rw [hok.zero, hzero]
  unfold cgCttz
  refine wp_countPre (z := cg.zeroReg) hok.pool fun hnext => ?_
  rw [Exec.wp_bind, Exec.wp_get]
  refine wp_emitNext (wp_emitNext (wp_emitNext (wp_emitNext (wp_emitNext (wp_emitNext (wp_emitNext ?_))))))
  rw [wp_cgEmit]
  obtain ⟨f₁, hrun₁, hag₁, hreads₁⟩ := runsIn_script (f := f) host hcode hsrcs hnext _ (countPre_ok bits) fun _ _ => rfl
  obtain ⟨hx, hn, hone, hzero'⟩ := evalScript_countPre hbits fun x => f.regs (x.reg [src, cg.zeroReg] cg.nextReg)
  obtain ⟨f₂, hrun₂, hcount⟩ := runsIn_trailingLoop host hcode hsrcs hnext rfl (by unfold countRegs; split <;> omega) hreads₁ hone hn
    (hzero'.trans hz) hbits (x := (f.regs src).setWidth bits) hx
  have hmov := steps_mov (f := f₂) host hcode dst (RegName.reg [src, cg.zeroReg] cg.nextReg (.tmp 1)) 0
  have hall := (hrun₁.append hcode hrun₂).append hcode (.of_steps hmov)
  refine ⟨_, cg.nextReg + countRegs bits, _, ?_, hall.mono ?_, ?_⟩
  · simp [Cg.extend, Cg.emit, scriptWords, ScriptInst.words, BlockInst.word, skipIfEq, RegName.reg, shiftTurn, lowestBit, trailingWords]
  · have hpre := length_countPre (RegName.reg [src, cg.zeroReg] cg.nextReg) bits
    omega
  · rw [Frame.setReg_same, hcount]

end trailing

end CronoVM
