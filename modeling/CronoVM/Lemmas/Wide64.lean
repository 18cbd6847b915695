import CronoVM.IrEval
import CronoVM.Lemmas.Narrow
import CronoVM.Lemmas.WideWords
import CronoVM.Translator.WideDef

/-!
# Arithmetic on two words

The sequences that compute the words of a 64-bit operation from those of its operands, as blocks. Each block computes one of the
identities about numbers of two words.
-/

namespace CronoVM

open Checked Ir NarrowInt TwoWord

variable {κ W : Type}

/-! ## Shift amounts -/

/-- A small amount in a register is that number of bits. -/
theorem toNat_amount {n : Nat} (h : n < 32) : ((BitVec.ofNat 16 n).signExtend 32 &&& 31 : Word).toNat = n := by
  have h31 : (31 : Word).toNat = 2 ^ 5 - 1 := rfl
  rw [signExtend_ofNat (by omega), BitVec.toNat_and, h31, Nat.and_two_pow_sub_one_eq_mod, BitVec.toNat_ofNat]
  omega

theorem shl_amount (x : Word) {n : Nat} (h : n < 32) : x <<< ((BitVec.ofNat 16 n).signExtend 32 &&& 31 : Word) = x <<< n := by
  rw [BitVec.shiftLeft_eq', toNat_amount h]

theorem shr_amount (x : Word) {n : Nat} (h : n < 32) : x >>> ((BitVec.ofNat 16 n).signExtend 32 &&& 31 : Word) = x >>> n := by
  rw [BitVec.ushiftRight_eq', toNat_amount h]

theorem sar_amount (x : Word) {n : Nat} (h : n < 32) :
    x.sshiftRight' ((BitVec.ofNat 16 n).signExtend 32 &&& 31 : Word) = x.sshiftRight n := by
  rw [BitVec.sshiftRight', toNat_amount h]

/-! ## Words -/

section words

variable {img : Image κ} (host : Host κ W) {cg : Cg} {f : Frame κ W} {a b : Byte × Byte} {x y z : BitVec 64}

variable (hcode : img.code.length = img.codeCount.toNat)
include hcode

/-- A block that computes the two words of a value. -/
theorem GivesWide.of_block (srcs : List Byte) (hsrcs : ∀ r ∈ srcs, Held r cg.nextReg) (k : Nat) (hnext : cg.nextReg + k ≤ cgMaxEmitReg + 1)
    (block : List BlockInst) (hblock : block.all (BlockInst.ok srcs.length k) = true) (lo hi : RegName)
    (hlo : lo ≠ .scratch ∧ lo.ok srcs.length k = true) (hhi : hi ≠ .scratch ∧ hi.ok srcs.length k = true)
    (hz : evalBlock block (fun x => f.regs (x.reg srcs cg.nextReg)) hi ++ evalBlock block (fun x => f.regs (x.reg srcs cg.nextReg)) lo = z) :
    GivesWide img host cg f z (lo.reg srcs cg.nextReg, hi.reg srcs cg.nextReg)
      { cg.emit (block.map (BlockInst.word (RegName.reg srcs cg.nextReg))) with nextReg := cg.nextReg + k } := by
  obtain ⟨f', hprep, hreads⟩ := prepares_block (f := f) host hcode hsrcs hnext block hblock
  refine ⟨f', hprep, ?_, RegName.held_reg hsrcs hnext hlo.2 hlo.1, RegName.held_reg hsrcs hnext hhi.2 hhi.1⟩
  rw [hreads lo hlo.2, hreads hi hhi.2, hz]

omit hcode in
/-- The registers of two operands are in use. -/
theorem held_srcs (ha : HeldWide cg f a x) (hb : HeldWide cg f b y) : ∀ r ∈ [a.1, a.2, b.1, b.2], Held r cg.nextReg := by
  intro r hr
  simp only [List.mem_cons, List.not_mem_nil, or_false] at hr
  rcases hr with rfl | rfl | rfl | rfl
  · exact ha.held_lo
  · exact ha.held_hi
  · exact hb.held_lo
  · exact hb.held_hi

omit hcode in
theorem held_srcs_zero (hok : cg.Ok) (ha : HeldWide cg f a x) : ∀ r ∈ [a.1, a.2, cg.zeroReg], Held r cg.nextReg := by
  intro r hr
  simp only [List.mem_cons, List.not_mem_nil, or_false] at hr
  rcases hr with rfl | rfl | rfl
  · exact ha.held_lo
  · exact ha.held_hi
  · exact Or.inr hok.zero

/-- A bitwise operation, word by word. -/
theorem GivesWide.bitwise {cv : Opcode} {g : Word → Word → Word} (hg : aluOp cv = some g) (ha : HeldWide cg f a x) (hb : HeldWide cg f b y)
    (hroom : ¬cg.nextReg + 1 > cgMaxEmitReg) (hz : g (f.regs a.2) (f.regs b.2) ++ g (f.regs a.1) (f.regs b.1) = z) :
    GivesWide img host cg f z (BitVec.ofNat 8 cg.nextReg, BitVec.ofNat 8 (cg.nextReg + 1)) (cg.alloc.alloc.emit
      [encR cv (BitVec.ofNat 8 cg.nextReg) a.1 b.1, encR cv (BitVec.ofNat 8 (cg.nextReg + 1)) a.2 b.2]) := by
  refine .of_block host hcode _ (held_srcs ha hb) 2 (by omega) [.alu cv (.tmp 0) (.src 0) (.src 2), .alu cv (.tmp 1) (.src 1) (.src 3)] ?_
    (.tmp 0) (.tmp 1) ⟨nofun, rfl⟩ ⟨nofun, rfl⟩ ?_
  · simp only [List.all_cons, List.all_nil, BlockInst.ok, hg]
    rfl
  · simp only [evalBlock, BlockInst.eval, hg]
    exact hz

/-- Sums, differences, products and bitwise operations. -/
theorem wp_cgArith64 (hok : cg.Ok) (op : IntBinOp) (hop : op.isDiv = false) (hshift : op.isShift = false) (ha : HeldWide cg f a x)
    (hb : HeldWide cg f b y) (hz : op.eval x y = some z) :
    Exec.wp (cgArith64 op a b) (GivesWide img host cg f z) (fun e _ => e.OfOperand) cg := by
  have hpool := hok.pool
  refine wp_alloc hpool fun _ => wp_alloc hpool fun (hroom : ¬cg.nextReg + 1 > cgMaxEmitReg) => ?_
  have hsrcs := held_srcs ha hb
  rw [← ha.val, ← hb.val] at hz
  cases op with
  | add =>
    refine wp_alloc hpool fun (hroom : ¬cg.nextReg + 1 + 1 > cgMaxEmitReg) => ?_
    simp only [cgAddWords, Exec.wp_bind, wp_cgEmit, Cg.emit_emit, Exec.wp_pure]
    refine .of_block host hcode _ hsrcs 3 (by omega) [.alu .add (.tmp 0) (.src 0) (.src 2), .alu .cmpLtu (.tmp 2) (.tmp 0) (.src 0),
      .alu .add (.tmp 1) (.src 1) (.src 3), .alu .add (.tmp 1) (.tmp 1) (.tmp 2)] rfl (.tmp 0) (.tmp 1) ⟨RegName.noConfusion, rfl⟩ ⟨RegName.noConfusion, rfl⟩ ?_
    exact (add_append _ _ _ _).symm.trans (Option.some.inj hz)
  | sub =>
    refine wp_alloc hpool fun (hroom : ¬cg.nextReg + 1 + 1 > cgMaxEmitReg) => ?_
    simp only [cgSubWords, Exec.wp_bind, wp_cgEmit, Cg.emit_emit, Exec.wp_pure]
    refine .of_block host hcode _ hsrcs 3 (by omega) [.alu .cmpLtu (.tmp 2) (.src 0) (.src 2), .alu .sub (.tmp 0) (.src 0) (.src 2),
      .alu .sub (.tmp 1) (.src 1) (.src 3), .alu .sub (.tmp 1) (.tmp 1) (.tmp 2)] rfl (.tmp 0) (.tmp 1) ⟨RegName.noConfusion, rfl⟩ ⟨RegName.noConfusion, rfl⟩ ?_
    exact (sub_append _ _ _ _).symm.trans (Option.some.inj hz)
  | mul =>
    refine wp_alloc hpool fun (hroom : ¬cg.nextReg + 1 + 1 > cgMaxEmitReg) => ?_
    simp only [Exec.wp_bind, wp_cgEmit, Cg.emit_emit, Exec.wp_pure]
    refine .of_block host hcode _ hsrcs 3 (by omega) [.alu .mul (.tmp 0) (.src 0) (.src 2), .alu .mulhu (.tmp 1) (.src 0) (.src 2),
      .alu .mul (.tmp 2) (.src 0) (.src 3), .alu .add (.tmp 1) (.tmp 1) (.tmp 2), .alu .mul (.tmp 2) (.src 1) (.src 2),
      .alu .add (.tmp 1) (.tmp 1) (.tmp 2)] rfl (.tmp 0) (.tmp 1) ⟨RegName.noConfusion, rfl⟩ ⟨RegName.noConfusion, rfl⟩ ?_
    exact (mul_append _ _ _ _).symm.trans (Option.some.inj hz)
  | and =>
    simp only [Exec.wp_bind, wp_cgEmit, Cg.emit_emit, Exec.wp_pure]
    exact .bitwise host hcode (rfl : aluOp .and = some _) ha hb hroom (BitVec.and_append.symm.trans (Option.some.inj hz))
  | or =>
    simp only [Exec.wp_bind, wp_cgEmit, Cg.emit_emit, Exec.wp_pure]
    exact .bitwise host hcode (rfl : aluOp .or = some _) ha hb hroom (BitVec.or_append.symm.trans (Option.some.inj hz))
  | xor =>
    simp only [Exec.wp_bind, wp_cgEmit, Cg.emit_emit, Exec.wp_pure]
    exact .bitwise host hcode (rfl : aluOp .xor = some _) ha hb hroom (BitVec.xor_append.symm.trans (Option.some.inj hz))
  | udiv | sdiv | urem | srem => cases hop
  | shl | lshr | ashr => cases hshift

/-- Left shifts. -/
theorem wp_cgShl64 (hok : cg.Ok) (hzero : f.regs cgRegZero = 0) {n : Nat} (hn : n < 64) (ha : HeldWide cg f a x) :
    Exec.wp (cgShl64 n a.1 a.2) (GivesWide img host cg f (x <<< n)) (fun e _ => e.OfOperand) cg := by
  have hpool := hok.pool
  have hzreg : f.regs cg.zeroReg = 0 := by rw [hok.zero]; exact hzero
  have hsrcs := held_srcs_zero hok ha
  have hval : ∀ z : BitVec 64, z = (f.regs a.2 ++ f.regs a.1) <<< n → z = x <<< n := fun z hz => hz.trans (by rw [ha.val])
  unfold cgShl64
  by_cases h0 : n = 0
  · rw [if_pos h0, h0, BitVec.shiftLeft_zero]
    exact ⟨f, .refl hok.next_le, ha⟩
  rw [if_neg h0]
  by_cases hlt : n < 32
  · rw [if_pos hlt]
    refine wp_alloc hpool fun _ => wp_alloc hpool fun _ => wp_alloc hpool fun _ => wp_alloc hpool
      fun (hroom : ¬cg.nextReg + 1 + 1 + 1 > cgMaxEmitReg) => ?_
    simp only [cgShiftImm, Exec.wp_bind, wp_cgEmit, Cg.emit_emit, Exec.wp_pure]
    refine .of_block host hcode _ hsrcs 4 (by omega) [.movi .scratch (BitVec.ofNat 16 n), .alu .shl (.tmp 0) (.src 1) .scratch,
      .movi .scratch (BitVec.ofNat 16 (32 - n)), .alu .shr (.tmp 1) (.src 0) .scratch, .alu .or (.tmp 2) (.tmp 0) (.tmp 1),
      .movi .scratch (BitVec.ofNat 16 n), .alu .shl (.tmp 3) (.src 0) .scratch] rfl (.tmp 3) (.tmp 2) ⟨RegName.noConfusion, rfl⟩ ⟨RegName.noConfusion, rfl⟩ ?_
    have hsum := shiftLeft_append_of_lt (w := 32) (f.regs a.2) (f.regs a.1) hlt
    refine hval _ (Eq.trans ?_ hsum.symm)
    rw [← shl_amount _ hlt, ← shl_amount _ hlt, ← shr_amount _ (by omega : 32 - n < 32)]
    rfl
  rw [if_neg hlt]
  by_cases h32 : n = 32
  · rw [if_pos h32, Exec.wp_bind, Exec.wp_get, Exec.wp_pure]
    have hwhole := shiftLeft_append_of_le (w := 32) (f.regs a.2) (f.regs a.1) (Nat.le_refl 32)
    rw [Nat.sub_self, BitVec.shiftLeft_zero] at hwhole
    refine ⟨f, .refl hok.next_le, hval _ ?_, Or.inr hok.zero, ha.held_lo⟩
    rw [h32, hzreg]
    exact hwhole.symm
  · rw [if_neg h32]
    refine wp_alloc hpool fun (hroom : ¬cg.nextReg > cgMaxEmitReg) => ?_
    simp only [cgShiftImm, Exec.wp_bind, wp_cgEmit, Cg.emit_emit, Exec.wp_pure, Exec.wp_get]
    refine .of_block host hcode _ hsrcs 1 (by omega) [.movi .scratch (BitVec.ofNat 16 (n - 32)), .alu .shl (.tmp 0) (.src 0) .scratch] rfl
      (.src 2) (.tmp 0) ⟨RegName.noConfusion, rfl⟩ ⟨RegName.noConfusion, rfl⟩ ?_
    have hsum := shiftLeft_append_of_le (w := 32) (f.regs a.2) (f.regs a.1) (by omega : 32 ≤ n)
    refine hval _ (Eq.trans ?_ hsum.symm)
    rw [← shl_amount _ (by omega : n - 32 < 32)]
    exact congrArg (_ ++ ·) hzreg

/-- Logical right shifts. -/
theorem wp_cgShr64_logical (hok : cg.Ok) (hzero : f.regs cgRegZero = 0) {n : Nat} (hn : n < 64) (ha : HeldWide cg f a x) :
    Exec.wp (cgShr64 false n a.1 a.2) (GivesWide img host cg f (x >>> n)) (fun e _ => e.OfOperand) cg := by
  have hpool := hok.pool
  have hzreg : f.regs cg.zeroReg = 0 := by rw [hok.zero]; exact hzero
  have hsrcs := held_srcs_zero hok ha
  have hval : ∀ z : BitVec 64, z = (f.regs a.2 ++ f.regs a.1) >>> n → z = x >>> n := fun z hz => hz.trans (by rw [ha.val])
  unfold cgShr64
  by_cases h0 : n = 0
  · rw [if_pos h0, h0, BitVec.ushiftRight_zero]
    exact ⟨f, .refl hok.next_le, ha⟩
  rw [if_neg h0]
  by_cases hlt : n < 32
  · rw [if_pos hlt]
    refine wp_alloc hpool fun _ => wp_alloc hpool fun _ => wp_alloc hpool fun _ => wp_alloc hpool
      fun (hroom : ¬cg.nextReg + 1 + 1 + 1 > cgMaxEmitReg) => ?_
    simp only [cgShiftImm, Exec.wp_bind, wp_cgEmit, Cg.emit_emit, Exec.wp_pure]
    refine .of_block host hcode _ hsrcs 4 (by omega) [.movi .scratch (BitVec.ofNat 16 n), .alu .shr (.tmp 0) (.src 0) .scratch,
      .movi .scratch (BitVec.ofNat 16 (32 - n)), .alu .shl (.tmp 1) (.src 1) .scratch, .alu .or (.tmp 2) (.tmp 0) (.tmp 1),
      .movi .scratch (BitVec.ofNat 16 n), .alu .shr (.tmp 3) (.src 1) .scratch] rfl (.tmp 2) (.tmp 3) ⟨RegName.noConfusion, rfl⟩ ⟨RegName.noConfusion, rfl⟩ ?_
    have hshift := ushiftRight_append_of_lt (w := 32) (f.regs a.2) (f.regs a.1) hlt
    refine hval _ (Eq.trans ?_ hshift.symm)
    rw [← shr_amount _ hlt, ← shr_amount _ hlt, ← shl_amount _ (by omega : 32 - n < 32)]
    rfl
  rw [if_neg hlt]
  by_cases h32 : n = 32
  · rw [if_pos h32, if_neg Bool.false_ne_true, Exec.wp_bind, Exec.wp_get, Exec.wp_pure]
    have hwhole := ushiftRight_append_of_le (w := 32) (f.regs a.2) (f.regs a.1) (Nat.le_refl 32)
    rw [Nat.sub_self, BitVec.ushiftRight_zero] at hwhole
    refine ⟨f, .refl hok.next_le, hval _ ?_, ha.held_hi, Or.inr hok.zero⟩
    rw [h32, hzreg]
    exact hwhole.symm
  · rw [if_neg h32]
    refine wp_alloc hpool fun (hroom : ¬cg.nextReg > cgMaxEmitReg) => ?_
    simp only [cgShiftImm, Exec.wp_bind, wp_cgEmit, Cg.emit_emit, Bool.false_eq_true, if_false, Exec.wp_pure, Exec.wp_get]
    refine .of_block host hcode _ hsrcs 1 (by omega) [.movi .scratch (BitVec.ofNat 16 (n - 32)), .alu .shr (.tmp 0) (.src 1) .scratch] rfl
      (.tmp 0) (.src 2) ⟨RegName.noConfusion, rfl⟩ ⟨RegName.noConfusion, rfl⟩ ?_
    have hshift := ushiftRight_append_of_le (w := 32) (f.regs a.2) (f.regs a.1) (by omega : 32 ≤ n)
    refine hval _ (Eq.trans ?_ hshift.symm)
    rw [← shr_amount _ (by omega : n - 32 < 32)]
    exact congrArg (· ++ _) hzreg

/-- Arithmetic right shifts. -/
theorem wp_cgShr64_arith (hok : cg.Ok) {n : Nat} (hn : n < 64) (ha : HeldWide cg f a x) :
    Exec.wp (cgShr64 true n a.1 a.2) (GivesWide img host cg f (x.sshiftRight n)) (fun e _ => e.OfOperand) cg := by
  have hpool := hok.pool
  have hsrcs := held_srcs_zero hok ha
  have hval : ∀ z : BitVec 64, z = (f.regs a.2 ++ f.regs a.1).sshiftRight n → z = x.sshiftRight n := fun z hz => hz.trans (by rw [ha.val])
  unfold cgShr64
  by_cases h0 : n = 0
  · rw [if_pos h0, h0, BitVec.sshiftRight_zero]
    exact ⟨f, .refl hok.next_le, ha⟩
  rw [if_neg h0]
  by_cases hlt : n < 32
  · rw [if_pos hlt]
    refine wp_alloc hpool fun _ => wp_alloc hpool fun _ => wp_alloc hpool fun _ => wp_alloc hpool
      fun (hroom : ¬cg.nextReg + 1 + 1 + 1 > cgMaxEmitReg) => ?_
    simp only [cgShiftImm, Exec.wp_bind, wp_cgEmit, Cg.emit_emit, Exec.wp_pure]
    refine .of_block host hcode _ hsrcs 4 (by omega) [.movi .scratch (BitVec.ofNat 16 n), .alu .shr (.tmp 0) (.src 0) .scratch,
      .movi .scratch (BitVec.ofNat 16 (32 - n)), .alu .shl (.tmp 1) (.src 1) .scratch, .alu .or (.tmp 2) (.tmp 0) (.tmp 1),
      .movi .scratch (BitVec.ofNat 16 n), .alu .sar (.tmp 3) (.src 1) .scratch] rfl (.tmp 2) (.tmp 3) ⟨RegName.noConfusion, rfl⟩ ⟨RegName.noConfusion, rfl⟩ ?_
    have hshift := sshiftRight_append_of_lt (w := 32) (f.regs a.2) (f.regs a.1) hlt
    refine hval _ (Eq.trans ?_ hshift.symm)
    rw [← shr_amount _ hlt, ← sar_amount _ hlt, ← shl_amount _ (by omega : 32 - n < 32)]
    rfl
  rw [if_neg hlt]
  have hsign := sar_amount (f.regs a.2) (by decide : 31 < 32)
  by_cases h32 : n = 32
  · rw [if_pos h32, if_pos rfl]
    refine wp_alloc hpool fun (hroom : ¬cg.nextReg > cgMaxEmitReg) => ?_
    simp only [cgShiftImm, Exec.wp_bind, wp_cgEmit, Cg.emit_emit, Exec.wp_pure]
    refine .of_block host hcode _ hsrcs 1 (by omega) [.movi .scratch (BitVec.ofNat 16 31), .alu .sar (.tmp 0) (.src 1) .scratch] rfl
      (.src 1) (.tmp 0) ⟨RegName.noConfusion, rfl⟩ ⟨RegName.noConfusion, rfl⟩ ?_
    have hwhole := sshiftRight_append_of_le (w := 32) (f.regs a.2) (f.regs a.1) (by decide) (Nat.le_refl 32)
    rw [Nat.sub_self, BitVec.sshiftRight_zero] at hwhole
    refine hval _ ?_
    rw [h32]
    exact (congrArg (· ++ f.regs a.2) hsign).trans hwhole.symm
  · rw [if_neg h32]
    refine wp_alloc hpool fun _ => ?_
    simp only [if_true, cgShiftImm, Exec.wp_bind, wp_cgEmit, Cg.emit_emit]
    refine wp_allocReg hpool fun (hroom : ¬cg.nextReg + 1 > cgMaxEmitReg) => ?_
    simp only [Exec.wp_pure, Cg.alloc_emit, Cg.emit_emit]
    refine .of_block host hcode _ hsrcs 2 (by omega) [.movi .scratch (BitVec.ofNat 16 (n - 32)), .alu .sar (.tmp 0) (.src 1) .scratch,
      .movi .scratch (BitVec.ofNat 16 31), .alu .sar (.tmp 1) (.src 1) .scratch] rfl (.tmp 0) (.tmp 1) ⟨RegName.noConfusion, rfl⟩ ⟨RegName.noConfusion, rfl⟩ ?_
    have hshift := sshiftRight_append_of_le (w := 32) (f.regs a.2) (f.regs a.1) (by decide) (by omega : 32 ≤ n)
    refine hval _ (Eq.trans ?_ hshift.symm)
    rw [← sar_amount _ (by omega : n - 32 < 32)]
    exact congrArg (· ++ _) hsign

/-- Shifts. -/
theorem wp_cgShift64 (hok : cg.Ok) (hzero : f.regs cgRegZero = 0) (op : IntBinOp) (hop : op.isShift = true) {n : Nat} (hn : n < 64)
    (hy : y.toNat = n) (ha : HeldWide cg f a x) (hz : op.eval x y = some z) :
    Exec.wp (cgShift64 op n a.1 a.2) (GivesWide img host cg f z) (fun e _ => e.OfOperand) cg := by
  have hlt : y.toNat < 64 := by omega
  unfold cgShift64
  cases op with
  | shl =>
    obtain rfl : x <<< y.toNat = z := Option.some.inj ((if_pos hlt).symm.trans hz)
    rw [if_pos rfl, hy]
    exact wp_cgShl64 host hcode hok hzero hn ha
  | lshr =>
    obtain rfl : x >>> y.toNat = z := Option.some.inj ((if_pos hlt).symm.trans hz)
    rw [if_neg nofun, hy]
    exact wp_cgShr64_logical host hcode hok hzero hn ha
  | ashr =>
    obtain rfl : x.sshiftRight y.toNat = z := Option.some.inj ((if_pos hlt).symm.trans hz)
    rw [if_neg nofun, hy]
    exact wp_cgShr64_arith host hcode hok hn ha
  | add | sub | mul | udiv | sdiv | urem | srem | and | or | xor => nomatch hop

/-- The new words of an `atomicrmw`. -/
theorem wp_cgRmwWords (hok : cg.Ok) (op : RmwOp) (ha : HeldWide cg f a x) (hb : HeldWide cg f b y) :
    Exec.wp (cgRmwWords op a b) (GivesWide img host cg f (op.eval x y)) (fun e _ => e.OfOperand) cg := by
  have hpool := hok.pool
  have hsrcs := held_srcs ha hb
  unfold cgRmwWords
  rw [← ha.val, ← hb.val]
  cases op with
  | xchg =>
    rw [ha.val, hb.val]
    exact ⟨f, .refl hok.next_le, hb⟩
  | add =>
    refine wp_alloc hpool fun _ => wp_alloc hpool fun _ => wp_alloc hpool fun (hroom : ¬cg.nextReg + 1 + 1 > cgMaxEmitReg) => ?_
    simp only [cgAddWords, Exec.wp_bind, wp_cgEmit, Cg.emit_emit, Exec.wp_pure]
    refine .of_block host hcode _ hsrcs 3 (by omega) [.alu .add (.tmp 1) (.src 0) (.src 2), .alu .cmpLtu (.tmp 0) (.tmp 1) (.src 0),
      .alu .add (.tmp 2) (.src 1) (.src 3), .alu .add (.tmp 2) (.tmp 2) (.tmp 0)] rfl (.tmp 1) (.tmp 2) ⟨RegName.noConfusion, rfl⟩ ⟨RegName.noConfusion, rfl⟩ ?_
    exact (add_append _ _ _ _).symm
  | sub =>
    refine wp_alloc hpool fun _ => wp_alloc hpool fun _ => wp_alloc hpool fun (hroom : ¬cg.nextReg + 1 + 1 > cgMaxEmitReg) => ?_
    simp only [cgSubWords, Exec.wp_bind, wp_cgEmit, Cg.emit_emit, Exec.wp_pure]
    refine .of_block host hcode _ hsrcs 3 (by omega) [.alu .cmpLtu (.tmp 0) (.src 0) (.src 2), .alu .sub (.tmp 1) (.src 0) (.src 2),
      .alu .sub (.tmp 2) (.src 1) (.src 3), .alu .sub (.tmp 2) (.tmp 2) (.tmp 0)] rfl (.tmp 1) (.tmp 2) ⟨RegName.noConfusion, rfl⟩ ⟨RegName.noConfusion, rfl⟩ ?_
    exact (sub_append _ _ _ _).symm
  | and =>
    refine wp_alloc hpool fun _ => wp_alloc hpool fun (hroom : ¬cg.nextReg + 1 > cgMaxEmitReg) => ?_
    simp only [Exec.wp_bind, wp_cgEmit, Cg.emit_emit, Exec.wp_pure, Exec.wp_when]
    exact ⟨fun h => absurd h (by decide), fun _ => .bitwise host hcode (rfl : aluOp .and = some _) ha hb hroom BitVec.and_append.symm⟩
  | or =>
    refine wp_alloc hpool fun _ => wp_alloc hpool fun (hroom : ¬cg.nextReg + 1 > cgMaxEmitReg) => ?_
    simp only [Exec.wp_bind, wp_cgEmit, Cg.emit_emit, Exec.wp_pure, Exec.wp_when]
    exact ⟨fun h => absurd h (by decide), fun _ => .bitwise host hcode (rfl : aluOp .or = some _) ha hb hroom BitVec.or_append.symm⟩
  | xor =>
    refine wp_alloc hpool fun _ => wp_alloc hpool fun (hroom : ¬cg.nextReg + 1 > cgMaxEmitReg) => ?_
    simp only [Exec.wp_bind, wp_cgEmit, Cg.emit_emit, Exec.wp_pure, Exec.wp_when]
    exact ⟨fun h => absurd h (by decide), fun _ => .bitwise host hcode (rfl : aluOp .xor = some _) ha hb hroom BitVec.xor_append.symm⟩
  | nand =>
    refine wp_alloc hpool fun _ => wp_alloc hpool fun (hroom : ¬cg.nextReg + 1 > cgMaxEmitReg) => ?_
    simp only [cgMoviScratch, Exec.wp_bind, wp_cgEmit, wp_cgEmitLoadConst32, Cg.emit_emit, Exec.wp_pure, Exec.wp_when]
    refine ⟨fun _ => ?_, fun h => absurd trivial h⟩
    refine .of_block host hcode _ hsrcs 2 (by omega) [.alu .and (.tmp 0) (.src 0) (.src 2), .alu .and (.tmp 1) (.src 1) (.src 3),
      .movi .scratch (-1), .alu .xor (.tmp 0) (.tmp 0) .scratch, .alu .xor (.tmp 1) (.tmp 1) .scratch] rfl
      (.tmp 0) (.tmp 1) ⟨RegName.noConfusion, rfl⟩ ⟨RegName.noConfusion, rfl⟩ ?_
    have hones : ((-1 : BitVec 16).signExtend 32) = BitVec.allOnes 32 := by decide
    have hnot : ∀ u : Word, u ^^^ ((-1 : BitVec 16).signExtend 32) = ~~~u := by
      intro u
      rw [hones, BitVec.xor_allOnes]
    refine (congrArg₂ (· ++ ·) (hnot (f.regs a.2 &&& f.regs b.2)) (hnot (f.regs a.1 &&& f.regs b.1))).trans ?_
    rw [← BitVec.not_append, ← BitVec.and_append]
    rfl

end words

end CronoVM
