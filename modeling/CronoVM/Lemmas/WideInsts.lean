import CronoVM.Lemmas.LeadingZeros64
import CronoVM.Lemmas.WideCompare

/-!
# Instructions on two words

What the code of an instruction on 64-bit values leaves: a frame that has the result in its slots, and other scratch registers. An operand
is in registers before the first slot is written, so a result may have the slots of an operand.
-/

namespace CronoVM

open Checked Ir NarrowInt TwoWord

variable {κ W : Type}

/-! ## Copies and arithmetic -/

/-- A constant of 64 bits is its words. -/
theorem wideVal_const (cg : Cg) (f : Frame κ W) (bits : Nat) : wideVal cg f (.const (.int 64 bits)) = BitVec.ofNat 64 bits := by
  have hpow : 2 ^ 64 = 2 ^ 32 * 2 ^ 32 := by decide
  refine (eq_append (w := 32) (n := bits) (BitVec.toNat_ofNat bits 64) ?_ ?_).symm
  · exact (BitVec.toNat_ofNat ..).trans (Nat.mod_mod_of_dvd bits ⟨2 ^ 32, hpow⟩)
  · refine (BitVec.toNat_ofNat ..).trans ?_
    rw [hpow, Nat.mod_mul_right_div_self, Nat.mod_mod]

/-- The words that take the absolute value of `a`, from the register `n` on. -/
def absWords (n : Nat) (a : Byte × Byte) : List Word :=
  [encI16 .movi cgRegScratch (BitVec.ofNat 16 31), encR .sar (BitVec.ofNat 8 (n + 0)) a.2 cgRegScratch,
    encR .xor (BitVec.ofNat 8 (n + 1)) a.1 (BitVec.ofNat 8 (n + 0)), encR .xor (BitVec.ofNat 8 (n + 2)) a.2 (BitVec.ofNat 8 (n + 0)),
    encR .cmpLtu (BitVec.ofNat 8 (n + 5)) (BitVec.ofNat 8 (n + 1)) (BitVec.ofNat 8 (n + 0)),
    encR .sub (BitVec.ofNat 8 (n + 3)) (BitVec.ofNat 8 (n + 1)) (BitVec.ofNat 8 (n + 0)),
    encR .sub (BitVec.ofNat 8 (n + 4)) (BitVec.ofNat 8 (n + 2)) (BitVec.ofNat 8 (n + 0)),
    encR .sub (BitVec.ofNat 8 (n + 4)) (BitVec.ofNat 8 (n + 4)) (BitVec.ofNat 8 (n + 5))]

section arithmetic

variable {img : Image κ} (host : Host κ W) {cg : Cg} {f : Frame κ W} {i : Inst} {slot : Nat} {home : Home}

variable (hcode : img.code.length = img.codeCount.toNat)
include hcode

/-- `freeze`, and `bitcast` from a `double`. -/
theorem wp_cgCopy64 (hok : cg.Ok) (hin : InFrame cg img f) (hk : slot + 1 < cg.valSpillCount) : Exec.wp (cgCopy64 i slot)
    (fun _ => Leaves img host cg f (f.setWide (slotAddr cg f slot) (wideVal cg f (i.operand 0)))) (fun e _ => e.OfOperand) cg := by
  unfold cgCopy64
  refine wp_wide (wp_cgI64Read host hcode hok hin (i.operand 0)) fun a cg₁ f₁ hprep ha => ?_
  exact wp_writeResult host hcode hok hin hprep hk ha

/-- The operations on both operands' words. -/
theorem wp_arithOf (hok : cg.Ok) (hin : InFrame cg img f) (hk : slot + 1 < cg.valSpillCount) (op : IntBinOp) (hop : op.isDiv = false)
    (hshift : op.isShift = false) {z : BitVec 64} (hz : op.eval (wideVal cg f (i.operand 0)) (wideVal cg f (i.operand 1)) = some z) :
    Exec.wp (do
      let a ← cgI64Read (i.operand 0)
      let b ← cgI64Read (i.operand 1)
      let out ← cgArith64 op a b
      cgI64Write slot out.1 out.2) (fun _ => Leaves img host cg f (f.setWide (slotAddr cg f slot) z)) (fun e _ => e.OfOperand) cg := by
  refine wp_twoWide host hcode hok hin fun a b cg₁ f₁ hprep₁ ha hb => ?_
  refine wp_wide (wp_cgArith64 host hcode (hprep₁.ok hok) op hop hshift ha hb hz) fun out cg₂ f₂ hprep₂ hout => ?_
  exact wp_writeResult host hcode hok hin (hprep₁.trans hcode hprep₂) hk hout

/-- The shifts by a constant. -/
theorem wp_shiftBy (hok : cg.Ok) (hin : InFrame cg img f) (hzero : f.regs cgRegZero = 0) (hk : slot + 1 < cg.valSpillCount) (op : IntBinOp)
    (hshift : op.isShift = true) {bits : Nat} {z : BitVec 64} (hz : op.eval (wideVal cg f (i.operand 0)) (BitVec.ofNat 64 bits) = some z) :
    Exec.wp (do
      let a ← cgI64Read (i.operand 0)
      let out ← cgShift64 op (bits % 2 ^ 64 % 64) a.1 a.2
      cgI64Write slot out.1 out.2) (fun _ => Leaves img host cg f (f.setWide (slotAddr cg f slot) z)) (fun e _ => e.OfOperand) cg := by
  refine wp_wide (wp_cgI64Read host hcode hok hin (i.operand 0)) fun a cg₁ f₁ hprep₁ ha => ?_
  have hzero₁ : f₁.regs cgRegZero = 0 := (hprep₁.regs (Or.inr rfl)).trans hzero
  have hamount := IntBinOp.lt_of_isShift hshift hz
  have hn : (BitVec.ofNat 64 bits).toNat = bits % 2 ^ 64 % 64 := by
    rw [BitVec.toNat_ofNat] at hamount ⊢
    exact (Nat.mod_eq_of_lt hamount).symm
  refine wp_wide (wp_cgShift64 host hcode (hprep₁.ok hok) hzero₁ op hshift (Nat.mod_lt _ (by decide)) hn ha hz)
    fun out cg₂ f₂ hprep₂ hout => ?_
  exact wp_writeResult host hcode hok hin (hprep₁.trans hcode hprep₂) hk hout

/-- The binary operations but the divisions. -/
theorem wp_cgBinary64 (hok : cg.Ok) (hin : InFrame cg img f) (hzero : f.regs cgRegZero = 0) (hk : slot + 1 < cg.valSpillCount) (op : IntBinOp)
    (hop : op.isDiv = false) (hconst : op.isShift = true → ∃ bits, i.operand 1 = .const (.int 64 bits)) {z : BitVec 64}
    (hz : op.eval (wideVal cg f (i.operand 0)) (wideVal cg f (i.operand 1)) = some z) :
    Exec.wp (cgBinary64 op i slot) (fun _ => Leaves img host cg f (f.setWide (slotAddr cg f slot) z)) (fun e _ => e.OfOperand) cg := by
  unfold cgBinary64
  cases op with
  | udiv | sdiv | urem | srem => cases hop
  | shl | lshr | ashr =>
    obtain ⟨bits, hbits⟩ := hconst rfl
    rw [hbits, wideVal_const] at hz
    rw [hbits]
    exact wp_shiftBy host hcode hok hin hzero hk _ rfl hz
  | add | sub | and | or | xor | mul => exact wp_arithOf host hcode hok hin hk _ rfl rfl hz

/-- The absolute value of two words in registers. -/
theorem GivesWide.of_abs (hok : cg.Ok) {a : Byte × Byte} {x : BitVec 64} (ha : HeldWide cg f a x) (hroom : ¬cg.nextReg + 5 > cgMaxEmitReg) :
    GivesWide img host cg f x.abs (BitVec.ofNat 8 (cg.nextReg + 3), BitVec.ofNat 8 (cg.nextReg + 4))
      (cg.extend (absWords cg.nextReg a) 6) := by
  refine .of_block host hcode _ (held_srcs_zero hok ha) 6 (by omega) [.movi .scratch (BitVec.ofNat 16 31), .alu .sar (.tmp 0) (.src 1) .scratch,
    .alu .xor (.tmp 1) (.src 0) (.tmp 0), .alu .xor (.tmp 2) (.src 1) (.tmp 0), .alu .cmpLtu (.tmp 5) (.tmp 1) (.tmp 0),
    .alu .sub (.tmp 3) (.tmp 1) (.tmp 0), .alu .sub (.tmp 4) (.tmp 2) (.tmp 0), .alu .sub (.tmp 4) (.tmp 4) (.tmp 5)] rfl (.tmp 3) (.tmp 4)
    ⟨RegName.noConfusion, rfl⟩ ⟨RegName.noConfusion, rfl⟩ ?_
  have hsign : (f.regs a.2).sshiftRight' ((BitVec.ofNat 16 31).signExtend 32 &&& 31 : Word) = signWord (f.regs a.2) :=
    (sar_amount (f.regs a.2) (by decide : 31 < 32)).trans (sshiftRight_last (w := 32) (by decide) (f.regs a.2))
  rw [← ha.val]
  refine Eq.trans ?_ (abs_append (w := 32) (by decide) (f.regs a.2) (f.regs a.1)).symm
  rw [sub_append, ← hsign]
  rfl

/-- `llvm.abs.i64` -/
theorem wp_cgAbs64 (hok : cg.Ok) (hin : InFrame cg img f) (hhome : cg.home? i.result = some home) (hslot : home.i64Slot = some slot) :
    Exec.wp (cgAbs64 i) (fun _ => Leaves img host cg f (f.setWide (slotAddr cg f slot) (wideVal cg f (i.operand 0)).abs))
      (fun e _ => e.OfOperand) cg := by
  have hk := hok.wide_lt _ home slot hhome hslot
  have hlookup : cg.lookup (.loc i.result) = some home := hhome
  unfold cgAbs64
  rw [Exec.wp_bind, Exec.wp_get, hlookup, Option.bind_some, hslot]
  refine wp_wide (wp_cgI64Read host hcode hok hin (i.operand 0)) fun a cg₁ f₁ hprep ha => ?_
  have hpool := (hprep.ok hok).pool
  refine wp_extend (wp_allocNext hpool fun _ => wp_shiftImmNext (wp_allocNext hpool fun _ => wp_allocNext hpool fun _ =>
    wp_emitNext (wp_emitNext (wp_allocNext hpool fun _ => wp_allocNext hpool fun _ => wp_allocNext hpool fun hroom => ?_))))
  rw [Exec.wp_bind, cgSubWords]
  refine wp_emitNext (wp_emitNext (wp_emitNext ?_))
  rw [wp_cgEmit, Cg.extend_emit]
  simp only [List.nil_append, List.cons_append, Nat.reduceAdd]
  obtain ⟨f₂, hprep₂, hheld⟩ := GivesWide.of_abs (f := f₁) host hcode (hprep.ok hok) ha hroom
  exact wp_writeResult host hcode hok hin (hprep.trans hcode hprep₂) hk hheld

end arithmetic

/-! ## Select -/

section select

variable {img : Image κ} (host : Host κ W) {cg : Cg} {f : Frame κ W} {i : Inst} {slot : Nat} {home : Home}

variable (hcode : img.code.length = img.codeCount.toNat)
include hcode

/-- Two words are moved into fresh registers. -/
theorem runs_moveWide {r : Byte × Byte} {z : BitVec 64} (hr : HeldWide cg f r z) (hroom : ¬cg.nextReg + 1 > cgMaxEmitReg) : ∃ f',
    RunsTo img host [encR .mov (BitVec.ofNat 8 cg.nextReg) r.1 0, encR .mov (BitVec.ofNat 8 (cg.nextReg + 1)) r.2 0] f f' ∧
      f.AgreesOff (Scratch cg.nextReg) f' ∧ f'.regs (BitVec.ofNat 8 (cg.nextReg + 1)) ++ f'.regs (BitVec.ofNat 8 cg.nextReg) = z := by
  have hsrcs : ∀ s ∈ [r.1, r.2], Held s cg.nextReg := by
    intro s hs
    simp only [List.mem_cons, List.not_mem_nil, or_false] at hs
    rcases hs with rfl | rfl
    · exact hr.held_lo
    · exact hr.held_hi
  have hblock : [BlockInst.mov (.tmp 0) (.src 0), .mov (.tmp 1) (.src 1)].all (BlockInst.ok 2 2) = true := rfl
  obtain ⟨f', hrun, hag, hreads⟩ := runs_block (f := f) host hcode hsrcs (by omega) hblock fun _ _ => rfl
  exact ⟨f', hrun, hag, (congrArg₂ (· ++ ·) (hreads (.tmp 1) rfl) (hreads (.tmp 0) rfl)).trans hr.val⟩

/-- One of two values is moved into fresh registers: the second if `cond` is zero. -/
theorem GivesWide.of_ifEq (cond : Byte) {a b : Byte × Byte} {x y : BitVec 64} (hz : f.regs cg.zeroReg = 0) (ha : HeldWide cg f a x)
    (hb : HeldWide cg f b y) (hroom : ¬cg.nextReg + 1 > cgMaxEmitReg) :
    GivesWide img host cg f (if f.regs cond ≠ 0 then x else y) (BitVec.ofNat 8 cg.nextReg, BitVec.ofNat 8 (cg.nextReg + 1))
      (cg.alloc.alloc.emit (ifEq cond cg.zeroReg
        [encR .mov (BitVec.ofNat 8 cg.nextReg) a.1 0, encR .mov (BitVec.ofNat 8 (cg.nextReg + 1)) a.2 0]
        [encR .mov (BitVec.ofNat 8 cg.nextReg) b.1 0, encR .mov (BitVec.ofNat 8 (cg.nextReg + 1)) b.2 0])) := by
  have hbranch : ∃ f', RunsTo img host (ifEq cond cg.zeroReg
      [encR .mov (BitVec.ofNat 8 cg.nextReg) a.1 0, encR .mov (BitVec.ofNat 8 (cg.nextReg + 1)) a.2 0]
      [encR .mov (BitVec.ofNat 8 cg.nextReg) b.1 0, encR .mov (BitVec.ofNat 8 (cg.nextReg + 1)) b.2 0]) f f' ∧
      f.AgreesOff (Scratch cg.nextReg) f' ∧ f'.regs (BitVec.ofNat 8 (cg.nextReg + 1)) ++ f'.regs (BitVec.ofNat 8 cg.nextReg) =
        if f.regs cond ≠ 0 then x else y := by
    by_cases hc : f.regs cond = 0
    · obtain ⟨f', hrun, hag, hval⟩ := runs_moveWide host hcode hb hroom
      rw [if_neg (not_not_intro hc)]
      exact ⟨f', runs_ifEq hcode (Nat.le_of_ble_eq_true rfl) (Nat.le_of_ble_eq_true rfl) (fun hne => absurd (hc.trans hz.symm) hne)
        fun _ => hrun, hag, hval⟩
    · obtain ⟨f', hrun, hag, hval⟩ := runs_moveWide host hcode ha hroom
      rw [if_pos hc]
      exact ⟨f', runs_ifEq hcode (Nat.le_of_ble_eq_true rfl) (Nat.le_of_ble_eq_true rfl) (fun _ => hrun)
        fun heq => absurd (heq.trans hz) hc, hag, hval⟩
  obtain ⟨f', hrun, hag, hval⟩ := hbranch
  have hlast : (BitVec.ofNat 8 (cg.nextReg + 1)).toNat = cg.nextReg + 1 := toNat_nextReg hroom
  have hfirst : (BitVec.ofNat 8 cg.nextReg).toNat = cg.nextReg := toNat_nextReg (by omega)
  refine ⟨f', ⟨⟨_, cg.nextReg + 1 + 1, rfl, hrun⟩, hag, Nat.le_add_right _ 2, Nat.succ_le_succ (Nat.le_of_not_gt hroom)⟩, hval,
    Or.inl ?_, Or.inl ?_⟩
  · rw [hfirst]
    exact Nat.lt_add_of_pos_right (by decide : 0 < 2)
  · rw [hlast]
    exact Nat.lt_succ_self _

/-- `cg_emit_wide_select` -/
theorem wp_cgEmitWideSelect (hok : cg.Ok) (hin : InFrame cg img f) (hzero : f.regs cgRegZero = 0) (hslot : slot + 1 < cg.valSpillCount) :
    Exec.wp (cgEmitWideSelect i slot) (fun _ => Leaves img host cg f (f.setWide (slotAddr cg f slot)
      (if operandWord cg f (i.operand 0) ≠ 0 then wideVal cg f (i.operand 1) else wideVal cg f (i.operand 2)))) (fun e _ => e.OfOperand) cg := by
  unfold cgEmitWideSelect
  refine wp_operand (wp_cgRegFor host hcode hok hin (i.operand 0)) fun cond cg₁ f₁ hprep₁ hcond hheld => ?_
  refine wp_twoWide host hcode (hprep₁.ok hok) (hprep₁.inFrame hin) fun a b cg₂ f₂ hprep₂ ha hb => ?_
  rw [hprep₁.wideVal_eq hok] at ha hb
  have hprep := hprep₁.trans hcode hprep₂
  have hok₂ := hprep.ok hok
  have hcond₂ := (hprep₂.regs hheld).trans hcond
  have hz : f₂.regs cg₂.zeroReg = 0 := by rw [hok₂.zero, hprep.regs (Or.inr rfl), hzero]
  refine wp_alloc hok₂.pool fun _ => wp_alloc hok₂.pool fun (hroom : ¬cg₂.nextReg + 1 > cgMaxEmitReg) => ?_
  obtain ⟨f₃, hprep₃, hheld₃⟩ := GivesWide.of_ifEq host hcode cond hz ha hb hroom
  rw [hcond₂] at hheld₃
  rw [Exec.wp_bind, Exec.wp_get]
  simp only [Exec.wp_bind, wp_cgEmit, Cg.emit_emit]
  have hwords : [encBr .beq cond cg₂.alloc.alloc.zeroReg 3] ++ ([encR .mov (BitVec.ofNat 8 cg₂.nextReg) a.1 0] ++
      ([encR .mov (BitVec.ofNat 8 cg₂.alloc.nextReg) a.2 0] ++ ([encI24 .jmp 2] ++ ([encR .mov (BitVec.ofNat 8 cg₂.nextReg) b.1 0] ++
        [encR .mov (BitVec.ofNat 8 cg₂.alloc.nextReg) b.2 0])))) = ifEq cond cg₂.zeroReg
        [encR .mov (BitVec.ofNat 8 cg₂.nextReg) a.1 0, encR .mov (BitVec.ofNat 8 (cg₂.nextReg + 1)) a.2 0]
        [encR .mov (BitVec.ofNat 8 cg₂.nextReg) b.1 0, encR .mov (BitVec.ofNat 8 (cg₂.nextReg + 1)) b.2 0] := rfl
  rw [hwords]
  have hwrite := wp_writeResult host hcode hok hin (hprep.trans hcode hprep₃) hslot hheld₃
  have hreg : cg₂.alloc.nextReg = cg₂.nextReg + 1 := rfl
  rw [hreg]
  exact hwrite

end select

/-! ## Memory -/

/-- One of two words, picked without a branch. -/
theorem xor_mask (b : Bool) (x y : Word) : x ^^^ ((x ^^^ y) &&& (0 - boolWord b)) = if b = true then y else x := by
  cases b with
  | false =>
    have hmask : (0 - boolWord false : Word) = 0#32 := rfl
    rw [hmask, BitVec.and_zero, BitVec.xor_zero, if_neg Bool.false_ne_true]
  | true =>
    have hmask : (0 - boolWord true : Word) = BitVec.allOnes 32 := by decide
    rw [hmask, BitVec.and_allOnes, ← BitVec.xor_assoc, BitVec.xor_self, BitVec.zero_xor, if_pos rfl]

/-- The words that compare `a` with `b` and pick `c` or `a`, from the register `n` on. -/
def pickWords (n : Nat) (zero : Byte) (a b c : Byte × Byte) : List Word :=
  [encR .cmpEq (BitVec.ofNat 8 (n + 0)) a.1 b.1, encR .cmpEq (BitVec.ofNat 8 (n + 1)) a.2 b.2,
    encR .and (BitVec.ofNat 8 (n + 2)) (BitVec.ofNat 8 (n + 0)) (BitVec.ofNat 8 (n + 1)),
    encR .sub (BitVec.ofNat 8 (n + 3)) zero (BitVec.ofNat 8 (n + 2)),
    encR .xor (BitVec.ofNat 8 (n + 4)) a.1 c.1, encR .and (BitVec.ofNat 8 (n + 4)) (BitVec.ofNat 8 (n + 4)) (BitVec.ofNat 8 (n + 3)),
    encR .xor (BitVec.ofNat 8 (n + 4)) a.1 (BitVec.ofNat 8 (n + 4)),
    encR .xor (BitVec.ofNat 8 (n + 5)) a.2 c.2, encR .and (BitVec.ofNat 8 (n + 5)) (BitVec.ofNat 8 (n + 5)) (BitVec.ofNat 8 (n + 3)),
    encR .xor (BitVec.ofNat 8 (n + 5)) a.2 (BitVec.ofNat 8 (n + 5))]

section memory

variable {img : Image κ} (host : Host κ W) {cg : Cg} {f : Frame κ W} {i : Inst} {slot : Nat} {home : Home}

variable (hcode : img.code.length = img.codeCount.toNat)
include hcode

/-- The two words at an address. -/
theorem wp_cgLoadWords (hok : cg.Ok) (hin : InFrame cg img f) {addr : Byte} (haddr : Held addr cg.nextReg)
    (hmem : (f.regs addr).toNat + 8 ≤ img.memSize.toNat) :
    Exec.wp (cgLoadWords addr) (fun r cg' => ∃ f', Prepares img host cg f cg' f' ∧
      HeldWide cg' f' (r.1, r.2.2) (f.wideAt (f.regs addr).toNat) ∧ Held r.2.1 cg'.nextReg ∧ f'.regs r.2.1 = f.regs addr + 4)
      (fun e _ => e.OfOperand) cg := by
  have hlt := img.memSize.isLt
  have hsize := hin.size
  have hpool := hok.pool
  have hnat : (f.regs addr + 4).toNat = (f.regs addr).toNat + 4 := by
    have h4 : (4 : Word).toNat = 4 := rfl
    rw [BitVec.toNat_add, h4]
    omega
  unfold cgLoadWords
  refine wp_alloc hpool fun hroom₁ => ?_
  rw [Exec.wp_bind, wp_cgEmit]
  have hload : GivesReg img host cg f _ _ _ :=
    .of_runs hroom₁ (runs_ldw (f := f) host hcode (BitVec.ofNat 8 cg.nextReg) addr 0 ⟨hsize, by omega⟩)
  obtain ⟨f₁, hprep₁, hlo, hheld₁⟩ := hload.prepares
  generalize cg.alloc.emit _ = cg₁ at *
  have haddr₁ := hprep₁.held haddr
  rw [Exec.wp_bind, cgMoviScratch, wp_cgEmitLoadConst32]
  have hpool₁ : (cg₁.emit (loadConst32Words cgRegScratch 4)).freeList = [] := (hprep₁.ok hok).pool
  refine wp_alloc hpool₁ fun (hroom₂ : ¬cg₁.nextReg > cgMaxEmitReg) => ?_
  have hreg : (cg₁.emit (loadConst32Words cgRegScratch 4)).nextReg = cg₁.nextReg := rfl
  rw [Exec.wp_bind, wp_cgEmit, Cg.alloc_emit, Cg.emit_emit, hreg]
  have hmovi := runs_loadConst32 (f := f₁) host hcode cgRegScratch 4
  have hadd := runs_add (f := f₁.setReg cgRegScratch 4) host hcode (BitVec.ofNat 8 cg₁.nextReg) addr cgRegScratch
  rw [Frame.setReg_same, Frame.setReg_of_ne _ _ (haddr₁.ne_r254 hprep₁.next_le)] at hadd
  have hnext : GivesReg img host cg₁ f₁ _ _ _ := .of_runs_via hroom₂ (.setReg 4 (Or.inl rfl)) (hmovi.append hcode hadd)
  obtain ⟨f₂, hprep₂, ha4, hheld₂⟩ := hnext.prepares
  generalize cg₁.alloc.emit _ = cg₂ at *
  refine wp_alloc (hprep₂.ok (hprep₁.ok hok)).pool fun hroom₃ => ?_
  rw [Exec.wp_bind, wp_cgEmit, Exec.wp_pure]
  rw [hprep₁.regs haddr] at ha4
  have hmem₂ : InMemory img f₂ (f₂.regs (BitVec.ofNat 8 cg₁.nextReg)) := by
    refine ⟨(hprep₂.inFrame (hprep₁.inFrame hin)).size, ?_⟩
    rw [(hprep₂.inFrame (hprep₁.inFrame hin)).size, ha4, hnat]
    omega
  have hload' : GivesReg img host cg₂ f₂ _ _ _ := .of_runs hroom₃ (runs_ldw host hcode (BitVec.ofNat 8 cg₂.nextReg) _ 0 hmem₂)
  obtain ⟨f₃, hprep₃, hhi, hheld₃⟩ := hload'.prepares
  rw [ha4, hnat, hprep₂.agrees.heap, hprep₁.agrees.heap] at hhi
  refine ⟨f₃, (hprep₁.trans hcode hprep₂).trans hcode hprep₃, ⟨?_, hprep₃.held (hprep₂.held hheld₁), hheld₃⟩, hprep₃.held hheld₂, ?_⟩
  · rw [hhi, hprep₃.regs (hprep₂.held hheld₁), hprep₂.regs hheld₁, hlo]
    rfl
  · rw [hprep₃.regs hheld₂, ha4]

/-- The two words at an address that is in a register with the one behind it. -/
theorem wp_storeWide (hok : cg.Ok) (hin : InFrame cg img f) {addr a4 : Byte} {r : Byte × Byte} {z : BitVec 64} (haddr : Held addr cg.nextReg)
    (ha4 : Held a4 cg.nextReg) (hnext : f.regs a4 = f.regs addr + 4) (hr : HeldWide cg f r z)
    (hmem : (f.regs addr).toNat + 8 ≤ img.memSize.toNat) {α : Type} {k : Emit α} {Q : α → Cg → Prop}
    (hk : ∀ cg', StoresIn img host cg f cg' (f.setWide (f.regs addr).toNat z) → Exec.wp k Q (fun e _ => e.OfOperand) cg') :
    Exec.wp (do
      cgEmit (encR .stw 0 addr r.1)
      cgEmit (encR .stw 0 a4 r.2)
      k) Q (fun e _ => e.OfOperand) cg := by
  have hnext_le := hok.next_le
  have hlt := img.memSize.isLt
  have hnat : (f.regs a4).toNat = (f.regs addr).toNat + 4 := by
    have h4 : (4 : Word).toNat = 4 := rfl
    rw [hnext, BitVec.toNat_add, h4]
    omega
  rw [Exec.wp_bind]
  refine Exec.wp_mono ?_ (fun _ _ he => he) (wp_storeWord host hcode hin .refl (haddr.ne_r254 hnext_le) (hr.held_lo.ne_r254 hnext_le) (by omega))
  intro _ cg₁ h₁
  rw [Exec.wp_bind]
  refine Exec.wp_mono ?_ (fun _ _ he => he) (wp_storeWord host hcode hin h₁ (ha4.ne_r254 hnext_le) (hr.held_hi.ne_r254 hnext_le) (by omega))
  intro _ cg₂ h₂
  rw [hnat, ← setWide_append, hr.val] at h₂
  exact hk cg₂ h₂

/-- `case LLVMAtomicRMW` -/
theorem wp_cgAtomicRmw64 (hok : cg.Ok) (hin : InFrame cg img f) (hk : slot + 1 < cg.valSpillCount) {op : RmwOp} (hop : i.rmwOp = some op)
    {p : Nat} (hp : (operandWord cg f (i.operand 0)).toNat = p) (hmem : p + 8 ≤ img.memSize.toNat) : Exec.wp (cgAtomicRmw64 i slot)
      (fun _ => Leaves img host cg f ((f.setWide p (op.eval (f.wideAt p) (wideVal cg f (i.operand 1)))).setWide (slotAddr cg f slot)
        (f.wideAt p))) (fun e _ => e.OfOperand) cg := by
  subst hp
  unfold cgAtomicRmw64
  refine wp_operand (wp_cgRegFor host hcode hok hin (i.operand 0)) fun addr cg₁ f₁ hprep₁ haddr hheld => ?_
  rw [← haddr] at hmem ⊢
  rw [Exec.wp_bind]
  refine Exec.wp_mono ?_ (fun _ _ he => he) (wp_cgLoadWords host hcode (hprep₁.ok hok) (hprep₁.inFrame hin) hheld hmem)
  rintro old cg₂ ⟨f₂, hprep₂, hold, hheld₂, hnext₂⟩
  have hprep₂' := hprep₁.trans hcode hprep₂
  refine wp_wide (wp_cgI64Read host hcode (hprep₂'.ok hok) (hprep₂'.inFrame hin) (i.operand 1)) fun val cg₃ f₃ hprep₃ hval => ?_
  have hprep₃' := hprep₂'.trans hcode hprep₃
  rw [hprep₂'.wideVal_eq hok] at hval
  rw [hop]
  refine wp_wide (wp_cgRmwWords host hcode (hprep₃'.ok hok) op (hold.later hprep₃) hval) fun new cg₄ f₄ hprep₄ hnew => ?_
  have hprep₄' := hprep₃.trans hcode hprep₄
  have hall := hprep₂'.trans hcode hprep₄'
  have haddr₄ : f₄.regs addr = f₁.regs addr := (hprep₄'.regs (hprep₂.held hheld)).trans (hprep₂.regs hheld)
  have hnext₄ : f₄.regs old.2.1 = f₄.regs addr + 4 := by rw [hprep₄'.regs hheld₂, hnext₂, haddr₄]
  refine wp_storeWide host hcode (hall.ok hok) (hall.inFrame hin) (hprep₄'.held (hprep₂.held hheld)) (hprep₄'.held hheld₂) hnext₄ hnew
    (by rw [haddr₄]; exact hmem) fun cg₅ h₅ => ?_
  have hk₄ : slot + 1 < cg₄.valSpillCount := by rwa [hall.valSpillCount_eq]
  have hold₄ := hold.later hprep₄'
  refine Exec.wp_mono ?_ (fun _ _ he => he) (wp_cgI64Write host hcode (hall.ok hok) (hall.inFrame hin) h₅ hk₄
    (hold₄.held_lo.ne_r254 hall.next_le) (hold₄.held_hi.ne_r254 hall.next_le) rfl rfl)
  intro _ cg₆ h₆
  have hval₄ : f₄.regs old.2.2 ++ f₄.regs old.1 = f₁.wideAt (f₁.regs addr).toNat := hold₄.val
  have hwide₁ : f₁.wideAt (f₁.regs addr).toNat = f.wideAt (f₁.regs addr).toNat := by rw [Frame.wideAt, hprep₁.agrees.heap, Frame.wideAt]
  rw [haddr₄, hval₄, hwide₁, hall.slotAddr_eq] at h₆
  exact .of_stores hcode hok hall h₆ ((hall.agrees.setWide _ _).setWide _ _)

/-- Two values are compared; `z` is picked where they agree. -/
theorem prepares_pickWords (hok : cg.Ok) {a b c : Byte × Byte} {x y z : BitVec 64} (ha : HeldWide cg f a x) (hb : HeldWide cg f b y)
    (hc : HeldWide cg f c z) (hz : f.regs cg.zeroReg = 0) (hroom : ¬cg.nextReg + 5 > cgMaxEmitReg) : ∃ f',
    Prepares img host cg f (cg.extend (pickWords cg.nextReg cg.zeroReg a b c) 6) f' ∧
      HeldWide (cg.extend (pickWords cg.nextReg cg.zeroReg a b c) 6) f' (BitVec.ofNat 8 (cg.nextReg + 4), BitVec.ofNat 8 (cg.nextReg + 5))
        (if x = y then z else x) ∧ f'.regs (BitVec.ofNat 8 (cg.nextReg + 2)) = boolWord (decide (x = y)) ∧
      Held (BitVec.ofNat 8 (cg.nextReg + 2)) (cg.extend (pickWords cg.nextReg cg.zeroReg a b c) 6).nextReg := by
  have hsrcs : ∀ r ∈ [a.1, a.2, b.1, b.2, c.1, c.2, cg.zeroReg], Held r cg.nextReg := by
    intro r hr
    simp only [List.mem_cons, List.not_mem_nil, or_false] at hr
    rcases hr with rfl | rfl | rfl | rfl | rfl | rfl | rfl
    · exact ha.held_lo
    · exact ha.held_hi
    · exact hb.held_lo
    · exact hb.held_hi
    · exact hc.held_lo
    · exact hc.held_hi
    · exact Or.inr hok.zero
  obtain ⟨f', hprep, hreads⟩ := prepares_block (f := f) (k := 6) host hcode hsrcs (by omega) [.alu .cmpEq (.tmp 0) (.src 0) (.src 2),
    .alu .cmpEq (.tmp 1) (.src 1) (.src 3), .alu .and (.tmp 2) (.tmp 0) (.tmp 1), .alu .sub (.tmp 3) (.src 6) (.tmp 2),
    .alu .xor (.tmp 4) (.src 0) (.src 4), .alu .and (.tmp 4) (.tmp 4) (.tmp 3), .alu .xor (.tmp 4) (.src 0) (.tmp 4),
    .alu .xor (.tmp 5) (.src 1) (.src 5), .alu .and (.tmp 5) (.tmp 5) (.tmp 3), .alu .xor (.tmp 5) (.src 1) (.tmp 5)] rfl
  have hsame : ∀ u v : Word, (if u = v then 1 else 0 : Word) = boolWord (decide (u = v)) := by simp [boolWord]
  have hflag : (if f.regs a.1 = f.regs b.1 then 1 else 0 : Word) &&& (if f.regs a.2 = f.regs b.2 then 1 else 0) =
      boolWord (decide (x = y)) := by
    rw [hsame, hsame, boolWord_and, Bool.and_comm, ← ha.val, ← hb.val]
    exact congrArg boolWord (decide_eq_append _ _ _ _).symm
  have hpick : ∀ u v : Word, u ^^^ ((u ^^^ v) &&& (f.regs cg.zeroReg - ((if f.regs a.1 = f.regs b.1 then 1 else 0 : Word) &&&
      (if f.regs a.2 = f.regs b.2 then 1 else 0)))) = if x = y then v else u := by
    intro u v
    rw [hz, hflag, xor_mask]
    simp only [decide_eq_true_eq]
  have hheld : ∀ k, k < 6 → Held (BitVec.ofNat 8 (cg.nextReg + k)) (cg.nextReg + 6) := by
    intro k hk
    have hreg : (BitVec.ofNat 8 (cg.nextReg + k)).toNat = cg.nextReg + k := toNat_nextReg (by omega)
    exact Or.inl (by omega)
  refine ⟨f', hprep, ⟨?_, hheld 4 (by decide), hheld 5 (by decide)⟩, (hreads (.tmp 2) rfl).trans hflag, hheld 2 (by decide)⟩
  refine (congrArg₂ (· ++ ·) ((hreads (.tmp 5) rfl).trans (hpick _ (f.regs c.2))) ((hreads (.tmp 4) rfl).trans (hpick _ (f.regs c.1)))).trans ?_
  by_cases heq : x = y
  · rw [if_pos heq, if_pos heq, if_pos heq]
    exact hc.val
  · rw [if_neg heq, if_neg heq, if_neg heq]
    exact ha.val

/-- `case LLVMAtomicCmpXchg` -/
theorem wp_cgCmpXchg64 (hok : cg.Ok) (hin : InFrame cg img f) (hzero : f.regs cgRegZero = 0) (hhome : cg.home? i.result = some home)
    {base : Nat} (hbase : home.aggSlot = some base) (hroom : base + 2 < cg.valSpillCount) (hwrap : base + 2 < 2 ^ 16)
    {p : Nat} (hp : (operandWord cg f (i.operand 0)).toNat = p) (hmem : p + 8 ≤ img.memSize.toNat) :
    Exec.wp (cgCmpXchg64 i) (fun _ => Leaves img host cg f
      (((f.setWide p (if f.wideAt p = wideVal cg f (i.operand 1) then wideVal cg f (i.operand 2) else f.wideAt p)).setWide
        (slotAddr cg f base) (f.wideAt p)).setWord (slotAddr cg f (base + 2)) (boolWord (decide (f.wideAt p = wideVal cg f (i.operand 1))))))
      (fun e _ => e.OfOperand) cg := by
  have hlookup : cg.lookup (.loc i.result) = some home := hhome
  subst hp
  unfold cgCmpXchg64
  rw [Exec.wp_bind, Exec.wp_get, hlookup, Option.bind_some, hbase]
  refine wp_operand (wp_cgRegFor host hcode hok hin (i.operand 0)) fun addr cg₁ f₁ hprep₁ haddr hheld => ?_
  rw [← haddr] at hmem ⊢
  rw [Exec.wp_bind]
  refine Exec.wp_mono ?_ (fun _ _ he => he) (wp_cgLoadWords host hcode (hprep₁.ok hok) (hprep₁.inFrame hin) hheld hmem)
  rintro old cg₂ ⟨f₂, hprep₂, hold, hheld₂, hnext₂⟩
  have hprep₂' := hprep₁.trans hcode hprep₂
  refine wp_twoWide host hcode (hprep₂'.ok hok) (hprep₂'.inFrame hin) fun cmp new cg₃ f₃ hprep₃ hcmp hnew => ?_
  rw [hprep₂'.wideVal_eq hok] at hcmp hnew
  have hprep₃' := hprep₂'.trans hcode hprep₃
  have hok₃ := hprep₃'.ok hok
  have hpool := hok₃.pool
  have hz₃ : f₃.regs cg₃.zeroReg = 0 := by rw [hok₃.zero, hprep₃'.regs (Or.inr rfl), hzero]
  refine wp_extend (wp_allocNext hpool fun _ => wp_allocNext hpool fun _ => wp_allocNext hpool fun _ =>
    wp_emitNext (wp_emitNext (wp_emitNext (wp_allocNext hpool fun _ => ?_))))
  rw [Exec.wp_bind, Exec.wp_get]
  refine wp_emitNext (wp_allocNext hpool fun _ => wp_allocNext hpool fun hroom₃ => wp_emitNext (wp_emitNext (wp_emitNext (wp_emitNext
    (wp_emitNext (wp_emitNext ?_))))))
  obtain ⟨f₄, hprep₄, hpicked, hflag, hheld₄⟩ := prepares_pickWords (f := f₃) host hcode hok₃ (hold.later hprep₃) hcmp hnew hz₃ hroom₃
  simp only [List.nil_append, List.cons_append, Nat.reduceAdd]
  change Exec.wp _ _ _ (cg₃.extend (pickWords cg₃.nextReg cg₃.zeroReg (old.1, old.2.2) cmp new) 6)
  generalize cg₃.extend (pickWords cg₃.nextReg cg₃.zeroReg (old.1, old.2.2) cmp new) 6 = cg₄ at *
  have hprep₄' := hprep₃.trans hcode hprep₄
  have hall := hprep₂'.trans hcode hprep₄'
  have haddr₄ : f₄.regs addr = f₁.regs addr := (hprep₄'.regs (hprep₂.held hheld)).trans (hprep₂.regs hheld)
  have hnext₄ : f₄.regs old.2.1 = f₄.regs addr + 4 := by rw [hprep₄'.regs hheld₂, hnext₂, haddr₄]
  have hok₄ := hall.ok hok
  have hin₄ := hall.inFrame hin
  have hroom₄ : base + 2 < cg₄.valSpillCount := by rwa [hall.valSpillCount_eq]
  have hold₄ := hold.later hprep₄'
  refine wp_storeWide host hcode hok₄ hin₄ (hprep₄'.held (hprep₂.held hheld)) (hprep₄'.held hheld₂) hnext₄ hpicked
    (by rw [haddr₄]; exact hmem) fun cg₅ h₅ => ?_
  rw [Exec.wp_bind, Exec.wp_get, aggWordSlot_of_lt (by omega), aggWordSlot_of_lt (by omega), aggWordSlot_of_lt hwrap, h₅.valSlotOff_eq,
    h₅.valSlotOff_eq, h₅.valSlotOff_eq, Exec.wp_bind, Nat.add_zero]
  refine Exec.wp_mono ?_ (fun _ _ he => he) (wp_storeSlot host hcode hok₄ hin₄ h₅ (by omega) (hold₄.held_lo.ne_r254 hall.next_le))
  intro _ cg₆ h₆
  rw [Exec.wp_bind]
  refine Exec.wp_mono ?_ (fun _ _ he => he) (wp_storeSlot host hcode hok₄ hin₄ h₆ (by omega) (hold₄.held_hi.ne_r254 hall.next_le))
  intro _ cg₇ h₇
  refine Exec.wp_mono ?_ (fun _ _ he => he) (wp_storeSlot host hcode hok₄ hin₄ h₇ hroom₄ (hheld₄.ne_r254 hall.next_le))
  intro _ cg₈ h₈
  have hval₄ : f₄.regs old.2.2 ++ f₄.regs old.1 = f₁.wideAt (f₁.regs addr).toNat := hold₄.val
  have hwide₁ : f₁.wideAt (f₁.regs addr).toNat = f.wideAt (f₁.regs addr).toNat := by rw [Frame.wideAt, hprep₁.agrees.heap, Frame.wideAt]
  rw [← slotAddr_add_four, ← setWide_append, hval₄, hflag, haddr₄, hwide₁, hall.slotAddr_eq, hall.slotAddr_eq] at h₈
  exact .of_stores hcode hok hall h₈ (((hall.agrees.setWide _ _).setWide _ _).setWord _ _)

end memory

end CronoVM
