import CronoVM.Lemmas.Jumps
import CronoVM.Lemmas.Emission

/-!
# Arithmetic instructions

The instructions that put a function of two registers into a third have one rule, with the function `aluOp` gives. `RunsReading` is a
run through straight-line code that reads memory in one place at most.
-/

namespace CronoVM

open Checked Vm

variable {κ W : Type}

/-! ## Functions of two registers -/

/-- What an instruction makes of its operands `R[B]` and `R[C]`, where this is all it does. -/
def aluOp : Opcode → Option (Word → Word → Word)
  | .mov => some fun x _ => x
  | .add => some (· + ·)
  | .sub => some (· - ·)
  | .mul => some (· * ·)
  | .and => some (· &&& ·)
  | .or => some (· ||| ·)
  | .xor => some (· ^^^ ·)
  | .shl => some fun x y => x <<< (y &&& 31)
  | .shr => some fun x y => x >>> (y &&& 31)
  | .sar => some fun x y => x.sshiftRight' (y &&& 31)
  | .cmpEq => some fun x y => if x = y then 1 else 0
  | .cmpNe => some fun x y => if x ≠ y then 1 else 0
  | .cmpLt => some fun x y => if x.slt y then 1 else 0
  | .cmpLe => some fun x y => if x.sle y then 1 else 0
  | .cmpLtu => some fun x y => if x < y then 1 else 0
  | .cmpLeu => some fun x y => if x ≤ y then 1 else 0
  | .mulh => some fun x y => ((x.signExtend 64 * y.signExtend 64).sshiftRight 32).setWidth 32
  | .mulhu => some fun x y => ((x.setWidth 64 * y.setWidth 64) >>> 32).setWidth 32
  | _ => none

section steps

variable {img : Image κ} (host : Host κ W) {f : Frame κ W} {op : Opcode} {g : Word → Word → Word}

/-- The handler of such an instruction. -/
theorem handler_alu (hg : aluOp op = some g) (a b c : Byte) : ∃ l, Threaded.jt (instOp (encR op a b c)) = some l ∧
    ∀ pc, Threaded.handler img host (encR op a b c) (instA (encR op a b c)) (instB (encR op a b c)) (instC (encR op a b c)) l
      { f with pc := pc } = .val () { f.setReg a (g (f.regs b) (f.regs c)) with pc := pc } := by
  cases op <;> cases hg
  all_goals
    refine ⟨_, by rw [instOp_encR]; rfl, fun pc => ?_⟩
    simp only [instA_encR, instB_encR, instC_encR, Threaded.handler, Exec.run_bind, run_reg, run_setReg]
    rfl

variable (hcode : img.code.length = img.codeCount.toNat)
include hcode

theorem steps_alu (hg : aluOp op = some g) (a b c : Byte) :
    Steps img host (encR op a b c) f (f.setReg a (g (f.regs b) (f.regs c))) := by
  obtain ⟨l, hjt, hrun⟩ := handler_alu host hg a b c
  exact Steps.one hcode hjt hrun

theorem runs_alu (hg : aluOp op = some g) (a b c : Byte) :
    RunsTo img host [encR op a b c] f (f.setReg a (g (f.regs b) (f.regs c))) :=
  (steps_alu host hcode hg a b c).runsTo

end steps

/-! ## Divisions -/

/-- What a division makes of its operands, where the divisor is not zero. -/
def divOp : Opcode → Option (Word → Word → Word)
  | .div => some fun x y => if x = 0x80000000 ∧ y = 0xFFFFFFFF then 0x80000000 else x.sdiv y
  | .divu => some (· / ·)
  | .mod => some fun x y => if x = 0x80000000 ∧ y = 0xFFFFFFFF then 0 else x.srem y
  | .modu => some (· % ·)
  | _ => none

section divisions

variable {img : Image κ} (host : Host κ W) {f : Frame κ W} {op : Opcode} {g : Word → Word → Word}

variable (hcode : img.code.length = img.codeCount.toNat)
include hcode

theorem runs_div (hg : divOp op = some g) (a b c : Byte) (hc : f.regs c ≠ 0) :
    RunsTo img host [encR op a b c] f (f.setReg a (g (f.regs b) (f.regs c))) := by
  have hfail : ∀ pc, (failIf (f.regs c = 0) .divByZero : Vm κ W Unit) { f with pc := pc } = .val () { f with pc := pc } :=
    fun pc => if_neg hc
  cases op <;> cases hg
  case div =>
    refine RunsTo.one hcode (l := .lDiv) (by rw [instOp_encR]; rfl) fun pc => ?_
    simp only [instA_encR, instB_encR, instC_encR, Threaded.handler, Exec.run_bind, run_reg, hfail]
    split <;> simp only [Exec.run_bind, run_reg, run_setReg] <;> rfl
  case divu =>
    refine RunsTo.one hcode (l := .lDivu) (by rw [instOp_encR]; rfl) fun pc => ?_
    simp only [instA_encR, instB_encR, instC_encR, Threaded.handler, Exec.run_bind, run_reg, hfail, run_setReg]
    rfl
  case mod =>
    refine RunsTo.one hcode (l := .lMod) (by rw [instOp_encR]; rfl) fun pc => ?_
    simp only [instA_encR, instB_encR, instC_encR, Threaded.handler, Exec.run_bind, run_reg, hfail]
    split <;> simp only [Exec.run_bind, run_reg, run_setReg] <;> rfl
  case modu =>
    refine RunsTo.one hcode (l := .lModu) (by rw [instOp_encR]; rfl) fun pc => ?_
    simp only [instA_encR, instB_encR, instC_encR, Threaded.handler, Exec.run_bind, run_reg, hfail, run_setReg]
    rfl

end divisions

/-! ## What a run reads -/

/-- The instructions that read memory, or let a syscall read it. -/
def readers : List Opcode := [.ldw, .ldb, .ldh, .ret, .memcpy, .memmove, .longjmp, .coroSwap, .syscall]

/-- The next instruction reads nothing of memory, or is an `LDW` of a word in the `n` bytes from `a` on. -/
def ReadsWithin (img : Image κ) (a n : Nat) (f : Frame κ W) : Prop :=
  ∀ w, img.code[f.pc.toNat]? = some w → ∀ op ∈ readers, instOp w = op.code →
    op = .ldw ∧ a ≤ (f.regs (instB w)).toNat ∧ (f.regs (instB w)).toNat + 4 ≤ a + n

/-- The machine runs through `ws` and reads nothing of memory but the `n` bytes from `a` on. -/
def RunsReading (img : Image κ) (host : Host κ W) (a n : Nat) (ws : List Word) (f f' : Frame κ W) : Prop :=
  ∀ pc : Word, HasAt img.code pc.toNat ws → Exec.ReachesVia (ReadsWithin img a n) (Threaded.step img host) { f with pc := pc }
    { f' with pc := pc + BitVec.ofNat 32 ws.length }

section reading

variable {img : Image κ} (host : Host κ W) {f g h : Frame κ W} {ws us : List Word} {a n : Nat}

/-- An instruction that does not read memory. -/
theorem readsWithin_of {pc : Word} {w : Word} {op : Opcode} (hat : img.code[pc.toNat]? = some w) (hop : instOp w = op.code)
    (hnot : op ∉ readers) : ReadsWithin img a n { f with pc := pc } := by
  intro w' hw' op' hop' heq
  have hw' : img.code[pc.toNat]? = some w' := hw'
  rw [hat] at hw'
  obtain rfl := Option.some.inj hw'
  obtain rfl : op = op' := Opcode.code_injective (hop.symm.trans heq)
  exact absurd hop' hnot

variable (hcode : img.code.length = img.codeCount.toNat)
include hcode

theorem RunsReading.append {host : Host κ W} (hws : RunsReading img host a n ws f g) (hus : RunsReading img host a n us g h) :
    RunsReading img host a n (ws ++ us) f h := by
  intro pc hat
  have hend := hat.left.length_le
  have hlt := img.codeCount.isLt
  have hpc : (pc + BitVec.ofNat 32 ws.length).toNat = pc.toNat + ws.length := by
    rw [BitVec.toNat_add, BitVec.toNat_ofNat]
    omega
  have hsum : pc + BitVec.ofNat 32 (ws ++ us).length = pc + BitVec.ofNat 32 ws.length + BitVec.ofNat 32 us.length := by
    rw [List.length_append, BitVec.ofNat_add, BitVec.add_assoc]
  rw [hsum]
  exact (hws pc hat.left).trans (hus _ (by rw [hpc]; exact hat.right))

/-- One instruction whose handler leaves the pc alone. -/
theorem RunsReading.one {w : Word} {l : Threaded.Label} (hjt : Threaded.jt (instOp w) = some l)
    (hrun : ∀ pc, Threaded.handler img host w (instA w) (instB w) (instC w) l { f with pc := pc } = .val () { g with pc := pc })
    (hread : ∀ pc, img.code[pc.toNat]? = some w → ReadsWithin img a n { f with pc := pc }) : RunsReading img host a n [w] f g := by
  intro pc hat
  have hget : img.code[pc.toNat]? = some w := hat.getElem? (k := 0) (by simp)
  have hpc : pc = BitVec.ofNat 32 pc.toNat := by rw [BitVec.ofNat_toNat, BitVec.setWidth_eq]
  refine .step .refl (hread pc hget) ?_
  have hfetch : Threaded.step img host { f with pc := BitVec.ofNat 32 pc.toNat } = _ := step_fetch hcode hget hjt
  rw [← hpc] at hfetch
  rw [hfetch, hrun]
  rfl

theorem runsReading_alu {op : Opcode} {fn : Word → Word → Word} (hfn : aluOp op = some fn) (ra rb rc : Byte) :
    RunsReading img host a n [encR op ra rb rc] f (f.setReg ra (fn (f.regs rb) (f.regs rc))) := by
  obtain ⟨l, hjt, hrun⟩ := handler_alu host hfn ra rb rc
  refine RunsReading.one host hcode hjt hrun fun pc hget => readsWithin_of hget (instOp_encR op ra rb rc) ?_
  intro hmem
  revert hfn
  simp only [readers, List.mem_cons, List.not_mem_nil, or_false] at hmem
  rcases hmem with rfl | rfl | rfl | rfl | rfl | rfl | rfl | rfl | rfl <;> exact nofun

theorem runsReading_movi (ra : Byte) (imm : BitVec 16) :
    RunsReading img host a n [encI16 .movi ra imm] f (f.setReg ra (imm.signExtend 32)) := by
  refine RunsReading.one host hcode (l := .lMovi) (by rw [instOp_encI16]; rfl) (fun pc => ?_)
    fun pc hget => readsWithin_of hget (instOp_encI16 .movi ra imm) (by decide)
  simp only [instA_encI16, instImm16_encI16, Threaded.handler, run_setReg]
  rfl

theorem runsReading_movhi (ra : Byte) (imm : BitVec 16) : RunsReading img host a n [encI16 .movhi ra imm] f
    (f.setReg ra (imm.setWidth 32 <<< 16 ||| (f.regs ra &&& 0xFFFF))) := by
  refine RunsReading.one host hcode (l := .lMovhi) (by rw [instOp_encI16]; rfl) (fun pc => ?_)
    fun pc hget => readsWithin_of hget (instOp_encI16 .movhi ra imm) (by decide)
  simp only [instA_encI16, instImm16_encI16, Threaded.handler, Exec.run_bind, run_reg, run_setReg]
  rfl

theorem runsReading_loadConst32 (rd : Byte) (imm : Word) :
    RunsReading img host a n (loadConst32Words rd imm) f (f.setReg rd imm) := by
  unfold loadConst32Words
  split
  case isTrue h =>
    have hmovi : RunsReading img host a n _ f _ := runsReading_movi host hcode rd (imm.setWidth 16)
    rwa [signExtend_setWidth h] at hmovi
  case isFalse h =>
    have hmovi : RunsReading img host a n _ f _ := runsReading_movi host hcode rd (imm.setWidth 16)
    have hmovhi : RunsReading img host a n _ (f.setReg rd ((imm.setWidth 16).signExtend 32)) _ :=
      runsReading_movhi host hcode rd ((imm >>> 16).setWidth 16)
    rw [Frame.setReg_same, movhi_movi, Frame.setReg_setReg] at hmovhi
    exact hmovi.append hcode hmovhi

/-- `LDW` of a word in these bytes. -/
theorem runsReading_ldw (ra rb : Byte) (h : InMemory img f (f.regs rb)) (hlo : a ≤ (f.regs rb).toNat)
    (hhi : (f.regs rb).toNat + 4 ≤ a + n) :
    RunsReading img host a n [encR .ldw ra rb 0] f (f.setReg ra (f.heap.word (f.regs rb).toNat)) := by
  refine RunsReading.one host hcode (l := .lLdw) (by rw [instOp_encR]; rfl) (fun pc => ?_) fun pc hget => ?_
  · have hpc : InMemory img { f with pc := pc } (f.regs rb) := h
    simp only [instA_encR, instB_encR, Threaded.handler, Exec.run_bind, run_reg, failIf, Exec.run_stopIf_of_not _ h.check,
      run_load32 hpc, run_setReg]
    rfl
  · intro w' hw' op' _ heq
    have hw' : img.code[pc.toNat]? = some w' := hw'
    rw [hget] at hw'
    obtain rfl := Option.some.inj hw'
    rw [instOp_encR] at heq
    rw [instB_encR]
    exact ⟨(Opcode.code_injective heq).symm, hlo, hhi⟩

end reading

end CronoVM
