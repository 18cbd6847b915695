import CronoVM.Lemmas.WideWords
import CronoVM.Translator.Vectors

/-!
# Vectors

What `cg_vec_read_lane` leaves of a constant, and the memory a store of a constant vector leaves.
-/

namespace CronoVM

open Checked Ir Vm

variable {κ W : Type}

/-! ## Bytes of memory -/

/-- The word of the `n` bytes at `p`, clear above. -/
def Mem.lowBytes (m : Mem) (p n : Nat) : Word := leWord fun k => if k < n then m.byte (p + k) else 0

/-- The low bits of a word whose bytes are those of another. -/
theorem setWidth_leWord {b : Nat → Byte} {w : Word} {n bits : Nat} (hn : n ≤ 4) (hbits : bits ≤ 8 * n) (hb : ∀ k < n, b k = leByte w k) :
    (leWord b).setWidth bits = w.setWidth bits := by
  have hbyte : ∀ k < n, ∀ i < 8, (leWord b).getLsbD (8 * k + i) = w.getLsbD (8 * k + i) := by
    intro k hk i hi
    have hleft := congrArg (fun x : Byte => x.getLsbD i) ((leByte_leWord b (Nat.lt_of_lt_of_le hk hn)).trans (hb k hk))
    simpa only [leByte, BitVec.getLsbD_extractLsb', hi, decide_true, Bool.true_and] using hleft
  apply BitVec.eq_of_getLsbD_eq
  intro i hi
  rw [BitVec.getLsbD_setWidth, BitVec.getLsbD_setWidth]
  have hplace : 8 * (i / 8) + i % 8 = i := Nat.div_add_mod i 8
  have hbit := hbyte (i / 8) (by omega) (i % 8) (Nat.mod_lt i (by decide))
  rw [hplace] at hbit
  rw [hbit]

theorem lowBytes_blit (m : Mem) (p : Nat) {n bits : Nat} (w : Word) (hn : n ≤ 4) (hbits : bits ≤ 8 * n) :
    ((m.blit p n (leByte w)).lowBytes p n).setWidth bits = w.setWidth bits :=
  setWidth_leWord hn hbits fun k hk => by rw [if_pos hk, Mem.blit_byte_add _ _ hk]

theorem lowBytes_congr {m m' : Mem} {p n : Nat} (h : ∀ i, p ≤ i → i < p + n → m'.byte i = m.byte i) : m'.lowBytes p n = m.lowBytes p n := by
  refine leWord_congr fun k _ => ?_
  by_cases hk : k < n
  · rw [if_pos hk, if_pos hk, h _ (Nat.le_add_right p k) (Nat.add_lt_add_left hk p)]
  · rw [if_neg hk, if_neg hk]

/-- The memory after the stores of the first lanes. -/
def Mem.storeLanes (m : Mem) (p bytes : Nat) (w : Nat → Word) : Nat → Mem
  | 0 => m
  | lane + 1 => (m.storeLanes p bytes w lane).blit (p + lane * bytes) bytes (leByte (w lane))

section lanes

variable (m : Mem) (p bytes : Nat) (w : Nat → Word)

theorem storeLanes_size (n : Nat) : (m.storeLanes p bytes w n).size = m.size := by
  induction n with
  | zero => rfl
  | succ n ih => exact ih

/-- Only the bytes of the lanes change. -/
theorem storeLanes_byte {n i : Nat} (h : i < p ∨ p + n * bytes ≤ i) : (m.storeLanes p bytes w n).byte i = m.byte i := by
  induction n with
  | zero => rfl
  | succ n ih =>
    rw [Nat.succ_mul] at h
    rw [Mem.storeLanes]
    rcases h with h | h
    · rw [Mem.blit_byte_of_lt _ _ (by omega), ih (Or.inl h)]
    · rw [Mem.blit_byte_of_ge _ _ (by omega), ih (Or.inr (by omega))]

/-- A lane is read back. -/
theorem lowBytes_storeLanes {n lane bits : Nat} (hlane : lane < n) (hn : bytes ≤ 4) (hbits : bits ≤ 8 * bytes) :
    ((m.storeLanes p bytes w n).lowBytes (p + lane * bytes) bytes).setWidth bits = (w lane).setWidth bits := by
  induction n with
  | zero => exact absurd hlane (Nat.not_lt_zero lane)
  | succ n ih =>
    rcases Nat.lt_succ_iff_lt_or_eq.mp hlane with hlt | rfl
    · rw [← ih hlt]
      have hle : (lane + 1) * bytes ≤ n * bytes := Nat.mul_le_mul_right bytes hlt
      rw [Nat.succ_mul] at hle
      exact congrArg _ (lowBytes_congr fun i _ hi => Mem.blit_byte_of_lt _ _ (by omega))
    · exact lowBytes_blit _ _ _ hn hbits

end lanes

/-! ## Lanes -/

/-- The word `cg_vec_read_lane` leaves of a constant. -/
def VecConst.laneWord (elem : LaneTy) (c : VecConst) (lane : Nat) : Word := laneConst elem (c.aggregateElement lane)

/-- Bits that are apart are added without a carry. -/
theorem xor_eq_add {w : Nat} {x s : BitVec w} (h : x &&& s = 0#w) : x ^^^ s = x + s := by
  rw [BitVec.add_eq_or_of_and_eq_zero x s h]
  apply BitVec.eq_of_getLsbD_eq
  intro i hi
  have hi' := congrArg (fun y : BitVec w => y.getLsbD i) h
  simp only [BitVec.getLsbD_and, BitVec.getLsbD_zero] at hi'
  rw [BitVec.getLsbD_xor, BitVec.getLsbD_or]
  revert hi'
  cases x.getLsbD i <;> cases s.getLsbD i <;> simp

/-- The top bit is flipped and subtracted. -/
theorem xor_sub_bit {w : Nat} (x s : BitVec w) (hneg : -s = s) (hbit : x &&& s = 0#w ∨ x &&& s = s) : (x ^^^ s) - s = x := by
  rcases hbit with h | h
  · rw [xor_eq_add h, BitVec.add_sub_cancel]
  · have hclear : (x ^^^ s) &&& s = 0#w := by
      apply BitVec.eq_of_getLsbD_eq
      intro i hi
      have hi' := congrArg (fun y : BitVec w => y.getLsbD i) h
      simp only [BitVec.getLsbD_and] at hi'
      rw [BitVec.getLsbD_and, BitVec.getLsbD_xor, BitVec.getLsbD_zero]
      revert hi'
      cases x.getLsbD i <;> cases s.getLsbD i <;> simp
    calc (x ^^^ s) - s = (x ^^^ s) + s := by rw [BitVec.sub_eq_add_neg, hneg]
      _ = (x ^^^ s) ^^^ s := (xor_eq_add hclear).symm
      _ = x := by rw [BitVec.xor_assoc, BitVec.xor_self, BitVec.xor_zero]

/-- The low bits of an integer lane are its bits. -/
theorem setWidth_laneImm {w : Nat} (hpos : 1 ≤ w) (hw : w ≤ 32) (bits : Nat) : (laneImm w w bits).setWidth w = BitVec.ofNat w bits := by
  have hlow : (BitVec.ofNat 64 (bits % 2 ^ w)).setWidth w = BitVec.ofNat w bits := by
    apply BitVec.eq_of_toNat_eq
    have hlt : bits % 2 ^ w < 2 ^ w := Nat.mod_lt _ (Nat.two_pow_pos w)
    have hle : 2 ^ w ≤ 2 ^ 64 := Nat.pow_le_pow_right (by decide) (by omega)
    rw [BitVec.toNat_setWidth, BitVec.toNat_ofNat, BitVec.toNat_ofNat, Nat.mod_eq_of_lt (Nat.lt_of_lt_of_le hlt hle), Nat.mod_mod]
  unfold laneImm
  split
  case isTrue h =>
    rw [BitVec.setWidth_setWidth_of_le _ hw, BitVec.sub_eq_add_neg, BitVec.setWidth_add _ _ (by omega), BitVec.setWidth_neg_of_le (by omega),
      BitVec.setWidth_xor, hlow, ← BitVec.sub_eq_add_neg]
    have hsign : (1#64 <<< (w - 1)).setWidth w = BitVec.intMin w := by
      have hlt : 2 ^ (w - 1) < 2 ^ w := Nat.pow_lt_pow_right (by decide) (by omega)
      have hle : 2 ^ w ≤ 2 ^ 64 := Nat.pow_le_pow_right (by decide) (by omega)
      apply BitVec.eq_of_toNat_eq
      rw [BitVec.toNat_setWidth, BitVec.toNat_shiftLeft, BitVec.toNat_ofNat, Nat.shiftLeft_eq, BitVec.toNat_intMin]
      rw [show 1 % 2 ^ 64 * 2 ^ (w - 1) = 2 ^ (w - 1) from Nat.one_mul _, Nat.mod_eq_of_lt (Nat.lt_of_lt_of_le hlt hle)]
    rw [hsign]
    refine xor_sub_bit _ _ BitVec.neg_intMin ?_
    rw [BitVec.intMin, BitVec.and_twoPow]
    split
    case isTrue => exact Or.inr rfl
    case isFalse => exact Or.inl rfl
  case isFalse h =>
    rw [BitVec.setWidth_setWidth_of_le _ hw, hlow]

section read

variable {img : Image κ} (host : Host κ W) {cg : Cg} {f : Frame κ W}

variable (hcode : img.code.length = img.codeCount.toNat)
include hcode

/-- `cg_vec_read_lane` of a constant. -/
theorem wp_cgVecReadLane (hpool : cg.freeList = []) (elem : LaneTy) (c : VecConst) (lane : Nat) :
    Exec.wp (cgVecReadLane elem (.const c) lane) (GivesReg img host cg f (c.laneWord elem lane)) (fun e _ => e = .scratchExhausted) cg := by
  have hzero : Exec.wp (do
      let r ← cgAllocReg
      cgEmit (encI16 .movi r 0)
      pure r) (GivesReg img host cg f 0) (fun e _ => e = .scratchExhausted) cg := by
    simp only [Exec.wp_bind, wp_cgAllocReg hpool, wp_cgEmit, Exec.wp_pure]
    exact ⟨fun _ => trivial, fun hroom => .of_runs hroom (runs_movi host hcode _ 0)⟩
  have hconst : ∀ w : Word, Exec.wp (do
      let r ← cgAllocReg
      cgEmitLoadConst32 r w
      pure r) (GivesReg img host cg f w) (fun e _ => e = .scratchExhausted) cg := by
    intro w
    simp only [Exec.wp_bind, wp_cgAllocReg hpool, wp_cgEmitLoadConst32, Exec.wp_pure]
    exact ⟨fun _ => trivial, fun hroom => .of_runs hroom (runs_loadConst32 host hcode _ w)⟩
  cases c with
  | undef => exact hzero
  | aggregateZero => exact hzero
  | elements lanes => exact hconst _
  | expr => exact hconst _

end read

/-! ## Stores -/

section stores

variable {img : Image κ} {host : Host κ W} {f : Frame κ W}

/-- The frame with the low bytes of a word at `p`. -/
def Frame.setLow (f : Frame κ W) (p n : Nat) (w : Word) : Frame κ W := { f with heap := f.heap.blit p n (leByte w) }

theorem setByte_eq (m : Mem) (p : Nat) (w : Word) : m.setByte p (w.setWidth 8) = m.blit p 1 (leByte w) := by
  refine m.blit_congr fun k hk => ?_
  obtain rfl : k = 0 := by omega
  apply BitVec.eq_of_getLsbD_eq
  intro i hi
  simp only [leByte, BitVec.getLsbD_extractLsb', BitVec.getLsbD_setWidth, Nat.mul_zero, Nat.zero_add]

theorem setHalf_eq (m : Mem) (p : Nat) (w : Word) : m.setHalf p (w.setWidth 16) = m.blit p 2 (leByte w) := by
  refine m.blit_congr fun k hk => ?_
  apply BitVec.eq_of_getLsbD_eq
  intro i hi
  simp only [leByteH, leByte, BitVec.getLsbD_extractLsb', BitVec.getLsbD_setWidth]
  have hlt : 8 * k + i < 16 := by omega
  rw [decide_eq_true hlt, Bool.true_and]

/-- The three widths of a lane in memory. -/
theorem laneMem_cases {elem : LaneTy} {ld st : Opcode} {bytes : Nat} (hmem : elem.laneMem = some (ld, st, bytes)) :
    (st = .stb ∧ bytes = 1 ∨ st = .sth ∧ bytes = 2 ∨ st = .stw ∧ bytes = 4) ∧ elem.elemBits ≤ 8 * bytes := by
  cases elem with
  | pointer =>
    obtain ⟨_, rfl, rfl⟩ : ld = .ldw ∧ st = .stw ∧ bytes = 4 := by simpa [LaneTy.laneMem, eq_comm] using hmem
    exact ⟨Or.inr (Or.inr ⟨rfl, rfl⟩), Nat.le_refl _⟩
  | int w =>
    rw [LaneTy.laneMem] at hmem
    split at hmem
    case isTrue h =>
      cases hmem
      exact ⟨Or.inl ⟨rfl, rfl⟩, by rcases h with rfl | rfl <;> decide⟩
    case isFalse =>
      split at hmem
      case isTrue h =>
        cases hmem
        subst h
        exact ⟨Or.inr (Or.inl ⟨rfl, rfl⟩), Nat.le_refl _⟩
      case isFalse =>
        split at hmem
        case isTrue h =>
          cases hmem
          subst h
          exact ⟨Or.inr (Or.inr ⟨rfl, rfl⟩), Nat.le_refl _⟩
        case isFalse => nomatch hmem

variable (host) (hcode : img.code.length = img.codeCount.toNat)
include hcode

/-- `STB`. -/
theorem steps_stb (a b c : Byte) (hsize : f.heap.size = img.memSize.toNat) (hin : (f.regs b).toNat + 1 ≤ img.memSize.toNat) :
    Steps img host (encR .stb a b c) f (f.setLow (f.regs b).toNat 1 (f.regs c)) := by
  refine Steps.one hcode (l := .lStb) (by rw [instOp_encR]; rfl) fun pc => ?_
  have hcheck : ¬f.regs b ≥ img.memSize := by
    rw [ge_iff_le, BitVec.le_def]
    omega
  have hbound : (f.regs b).toNat + 1 ≤ f.heap.size := by omega
  simp only [instB_encR, instC_encR, Threaded.handler, Exec.run_bind, run_reg, failIf, Exec.run_stopIf_of_not _ hcheck, store8, writeAt,
    Exec.run_get, Exec.run_demand_of _ hbound, Exec.run_modify, setByte_eq]
  rfl

/-- `STH`. -/
theorem steps_sth (a b c : Byte) (hsize : f.heap.size = img.memSize.toNat) (hin : (f.regs b).toNat + 2 ≤ img.memSize.toNat) :
    Steps img host (encR .sth a b c) f (f.setLow (f.regs b).toNat 2 (f.regs c)) := by
  refine Steps.one hcode (l := .lSth) (by rw [instOp_encR]; rfl) fun pc => ?_
  have hcheck : ¬(f.regs b > img.memSize ∨ img.memSize - f.regs b < 2) := by
    have hle : f.regs b ≤ img.memSize := by
      rw [BitVec.le_def]
      omega
    have hsub := BitVec.toNat_sub_of_le hle
    have htwo : (2 : Word).toNat = 2 := rfl
    simp only [gt_iff_lt, BitVec.lt_def, not_or, hsub]
    omega
  have hbound : (f.regs b).toNat + 2 ≤ f.heap.size := by omega
  simp only [instB_encR, instC_encR, Threaded.handler, Exec.run_bind, run_reg, failIf, Exec.run_stopIf_of_not _ hcheck, store16, writeAt,
    Exec.run_get, Exec.run_demand_of _ hbound, Exec.run_modify, setHalf_eq]
  rfl

/-- The store of a lane, at any width. -/
theorem steps_laneStore {elem : LaneTy} {ld st : Opcode} {bytes : Nat} (hmem : elem.laneMem = some (ld, st, bytes)) (a b c : Byte)
    (hsize : f.heap.size = img.memSize.toNat) (hin : (f.regs b).toNat + bytes ≤ img.memSize.toNat) :
    Steps img host (encR st a b c) f (f.setLow (f.regs b).toNat bytes (f.regs c)) := by
  obtain ⟨hcases, _⟩ := laneMem_cases hmem
  rcases hcases with ⟨rfl, rfl⟩ | ⟨rfl, rfl⟩ | ⟨rfl, rfl⟩
  · exact steps_stb host hcode a b c hsize hin
  · exact steps_sth host hcode a b c hsize hin
  · exact steps_stw host hcode a b c ⟨hsize, hsize ▸ hin⟩

/-! ### Lane by lane -/

/-- What the stores of the first lanes do: the memory has the lanes, and scratch registers from `cg.nextReg` on change. -/
structure StoresLanes (img : Image κ) (host : Host κ W) (cg : Cg) (f : Frame κ W) (p bytes : Nat) (w : Nat → Word) (n : Nat) (cg' : Cg) : Prop where
  next_ge : cg.nextReg ≤ cg'.nextReg
  next_le : cg'.nextReg ≤ cgMaxEmitReg + 1
  run : ∃ f', Emitted img host cg cg' f f' ∧ ({ f with heap := f.heap.storeLanes p bytes w n } : Frame κ W).AgreesOff (Scratch cg.nextReg) f'

/-- Code that stores a lane; beyond that scratch registers change. -/
def StoresLane (img : Image κ) (host : Host κ W) (cg : Cg) (f : Frame κ W) (p bytes : Nat) (w : Word) (cg' : Cg) : Prop :=
  cg.nextReg ≤ cg'.nextReg ∧ cg'.nextReg ≤ cgMaxEmitReg + 1 ∧
    ∃ f', Emitted img host cg cg' f f' ∧ (f.setLow p bytes w).AgreesOff (Scratch cg.nextReg) f'

/-- The address and the lane are in registers. -/
theorem storesLane_of_prepares {cg cg₁ : Cg} {f₁ : Frame κ W} {elem : LaneTy} {ld st : Opcode} {bytes p : Nat} {w : Word}
    (hmem : elem.laneMem = some (ld, st, bytes)) (hprep : Prepares img host cg f cg₁ f₁) {a r : Byte} (ha : (f₁.regs a).toNat = p)
    (hr : f₁.regs r = w) (hsize : f.heap.size = img.memSize.toNat) (hin : p + bytes ≤ img.memSize.toNat) :
    StoresLane img host cg f p bytes w (cg₁.emit [encR st 0 a r]) := by
  have hsize₁ : f₁.heap.size = img.memSize.toNat := by rw [hprep.agrees.heap, hsize]
  have hstep := steps_laneStore (f := f₁) host hcode hmem 0 a r hsize₁ (by omega)
  rw [ha, hr] at hstep
  refine ⟨hprep.next_ge, hprep.next_le, _, hprep.emitted.trans hcode (.of_runs hstep.runsTo), ?_⟩
  refine ⟨?_, hprep.agrees.imports, hprep.agrees.world, hprep.agrees.regs⟩
  rw [Frame.setLow, Frame.setLow, hprep.agrees.heap]

/-- One lane. -/
theorem wp_cgVecStoreLane {cg : Cg} (hok : cg.Ok) {elem : LaneTy} {ld st : Opcode} {bytes : Nat}
    (hmem : elem.laneMem = some (ld, st, bytes)) (c : VecConst) {addr : Byte} (haddr : Held addr cg.nextReg) (lane : Nat)
    (hsize : f.heap.size = img.memSize.toNat) (hin : (f.regs addr).toNat + lane * bytes + bytes ≤ img.memSize.toNat) :
    Exec.wp (cgVecStoreLane elem st bytes (.const c) addr lane)
      (fun _ => StoresLane img host cg f ((f.regs addr).toNat + lane * bytes) bytes (c.laneWord elem lane))
      (fun e _ => e = .scratchExhausted) cg := by
  unfold cgVecStoreLane
  refine wp_operand (wp_cgVecReadLane (f := f) host hcode hok.pool elem c lane) fun r cg₁ f₁ hprep hval hheld => ?_
  have haddr₁ : f₁.regs addr = f.regs addr := hprep.regs haddr
  by_cases h0 : lane = 0
  · rw [if_pos h0, wp_cgEmit]
    refine storesLane_of_prepares host hcode hmem hprep ?_ hval hsize hin
    rw [haddr₁, h0, Nat.zero_mul, Nat.add_zero]
  · rw [if_neg h0]
    simp only [cgMoviScratch, Exec.wp_bind, wp_cgEmitLoadConst32, wp_cgEmit]
    have hpool : (cg₁.emit (loadConst32Words cgRegScratch (BitVec.ofNat 32 (lane * bytes)))).freeList = [] := (hprep.ok hok).pool
    rw [wp_cgAllocReg hpool]
    refine ⟨fun _ => rfl, fun (hroom : ¬cg₁.nextReg > cgMaxEmitReg) => ?_⟩
    have hload := runs_loadConst32 (f := f₁) host hcode cgRegScratch (BitVec.ofNat 32 (lane * bytes))
    have hadd := runs_alu (f := f₁.setReg cgRegScratch (BitVec.ofNat 32 (lane * bytes))) host hcode (rfl : aluOp .add = some _)
      (BitVec.ofNat 8 cg₁.nextReg) addr cgRegScratch
    rw [Frame.setReg_same, Frame.setReg_of_ne _ _ ((hprep.held haddr).ne_r254 hprep.next_le), haddr₁] at hadd
    have hnext : Prepares img host cg₁ f₁ ((cg₁.emit (loadConst32Words cgRegScratch (BitVec.ofNat 32 (lane * bytes)))).alloc.emit
        [encR .add (BitVec.ofNat 8 cg₁.nextReg) addr cgRegScratch]) ((f₁.setReg cgRegScratch (BitVec.ofNat 32 (lane * bytes))).setReg
          (BitVec.ofNat 8 cg₁.nextReg) (f.regs addr + BitVec.ofNat 32 (lane * bytes))) := by
      refine ⟨(Emitted.of_runs hload).trans hcode ((Emitted.alloc _).trans hcode (.of_runs hadd)), ?_, Nat.le_succ _,
        Nat.succ_le_succ (Nat.le_of_not_gt hroom)⟩
      exact (Frame.AgreesOff.setReg _ (Or.inl rfl)).trans (.setReg _ (scratch_nextReg (Nat.le_refl _) hroom))
    have hne : r ≠ BitVec.ofNat 8 cg₁.nextReg := Held.ne_scratch (k := 0) hheld hroom
    refine storesLane_of_prepares host hcode hmem (hprep.trans hcode hnext) ?_ ?_ hsize hin
    · have hreg := Frame.setReg_same (f₁.setReg cgRegScratch (BitVec.ofNat 32 (lane * bytes))) (BitVec.ofNat 8 cg₁.nextReg)
        (f.regs addr + BitVec.ofNat 32 (lane * bytes))
      have hlt := img.memSize.isLt
      refine (congrArg BitVec.toNat hreg).trans ?_
      rw [BitVec.toNat_add, BitVec.toNat_ofNat, Nat.mod_eq_of_lt (show lane * bytes < 2 ^ 32 by omega)]
      exact Nat.mod_eq_of_lt (by omega)
    · rw [Frame.setReg_of_ne _ _ hne, Frame.setReg_of_ne _ _ (hheld.ne_r254 hprep.next_le)]
      exact hval

/-- The stores of the first lanes. -/
theorem wp_cgVecStoreLanes {cg : Cg} (hok : cg.Ok) {elem : LaneTy} {ld st : Opcode} {bytes : Nat}
    (hmem : elem.laneMem = some (ld, st, bytes)) (c : VecConst) {addr : Byte} (haddr : Held addr cg.nextReg) {n : Nat}
    (hsize : f.heap.size = img.memSize.toNat) (hin : (f.regs addr).toNat + n * bytes ≤ img.memSize.toNat) :
    Exec.wp (cgVecStoreLanes elem st bytes (.const c) addr cg.nextReg n)
      (fun _ => StoresLanes img host cg f (f.regs addr).toNat bytes (c.laneWord elem) n) (fun e _ => e = .scratchExhausted) cg := by
  induction n with
  | zero => exact ⟨Nat.le_refl _, hok.next_le, f, .refl, .refl _ f⟩
  | succ n ih =>
    rw [Nat.succ_mul] at hin
    rw [cgVecStoreLanes, Exec.wp_bind]
    refine Exec.wp_mono ?_ (fun _ _ he => he) (ih (by omega))
    rintro _ cg₁ ⟨hge, hle, f₁, hem, hag⟩
    rw [Exec.wp_bind, Exec.wp_modify]
    have hem₁ : Emitted img host cg { cg₁ with nextReg := cg.nextReg } f f₁ := hem.trans hcode (.alloc _)
    have hok₁ : ({ cg₁ with nextReg := cg.nextReg } : Cg).Ok := hem₁.ok hok hok.high_le hok.next_le
    have haddr₁ : f₁.regs addr = f.regs addr := hag.regs addr (haddr.not_scratch hok.next_le)
    have hsize₁ : f₁.heap.size = img.memSize.toNat := by
      rw [hag.heap, storeLanes_size, hsize]
    refine Exec.wp_mono ?_ (fun _ _ he => he) (wp_cgVecStoreLane host hcode hok₁ hmem c haddr n hsize₁ (by rw [haddr₁]; omega))
    rintro _ cg' ⟨hge', hle', f', hem', hag'⟩
    rw [haddr₁] at hag'
    refine ⟨hge', hle', f', hem₁.trans hcode hem', ?_⟩
    refine ⟨?_, hag'.imports.trans hag.imports, hag'.world.trans hag.world, fun r hr => (hag'.regs r hr).trans (hag.regs r hr)⟩
    rw [hag'.heap, Frame.setLow, hag.heap]
    rfl

end stores

end CronoVM
