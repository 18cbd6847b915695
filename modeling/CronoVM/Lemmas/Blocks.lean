import CronoVM.Lemmas.Alu
import CronoVM.Lemmas.Results

/-!
# Blocks of arithmetic

The translator computes into registers it has just allocated. A block is such code with its registers by name, so that what it computes
is read off the block, whatever registers the operands are in.
-/

namespace CronoVM

open Checked Ir

variable {κ W : Type}

/-! ## Blocks -/

/-- A register of a block: R254, an operand, or one allocated for it. -/
inductive RegName where
  | scratch
  | src (k : Nat)
  | tmp (k : Nat)
  deriving DecidableEq

/-- The register of a name, with the operands in `srcs` and registers allocated from `n` on. -/
def RegName.reg (srcs : List Byte) (n : Nat) : RegName → Byte
  | .scratch => cgRegScratch
  | .src k => srcs.getD k regSp
  | .tmp k => BitVec.ofNat 8 (n + k)

/-- An instruction of a block. -/
inductive BlockInst where
  | alu (op : Opcode) (a b c : RegName)
  | mov (a b : RegName)
  | movi (a : RegName) (imm : BitVec 16)

namespace BlockInst

/-- The instruction on the registers. -/
def word (ρ : RegName → Byte) : BlockInst → Word
  | alu op a b c => encR op (ρ a) (ρ b) (ρ c)
  | mov a b => encR .mov (ρ a) (ρ b) 0
  | movi a imm => encI16 .movi (ρ a) imm

/-- What the instruction makes of the words in the registers. -/
def eval (e : RegName → Word) : BlockInst → RegName → Word
  | alu op a b c => Function.update e a ((aluOp op).getD (fun x _ => x) (e b) (e c))
  | mov a b => Function.update e a (e b)
  | movi a imm => Function.update e a (imm.signExtend 32)

end BlockInst

/-- What a block makes of the words in the registers. -/
def evalBlock : List BlockInst → (RegName → Word) → RegName → Word
  | [], e => e
  | i :: is, e => evalBlock is (i.eval e)

theorem evalBlock_append (xs ys : List BlockInst) (e : RegName → Word) : evalBlock (xs ++ ys) e = evalBlock ys (evalBlock xs e) := by
  induction xs generalizing e with
  | nil => rfl
  | cons i is ih => exact ih (i.eval e)

/-- A name of one of `m` operands and `k` allocated registers. -/
def RegName.ok (m k : Nat) : RegName → Bool
  | .scratch => true
  | .src j => j < m
  | .tmp j => j < k

/-- The instruction writes no operand. -/
def BlockInst.ok (m k : Nat) : BlockInst → Bool
  | alu op a b c => (aluOp op).isSome && a.ok 0 k && b.ok m k && c.ok m k
  | mov a b => a.ok 0 k && b.ok m k
  | movi a _ => a.ok 0 k

/-! ## Registers -/

section registers

variable {srcs : List Byte} {n m k : Nat} {x y : RegName}

/-- Operands are not written. -/
theorem RegName.not_ok_src {j : Nat} : ¬(RegName.src j).ok 0 k = true := fun h => Nat.not_lt_zero j (of_decide_eq_true (p := j < 0) h)

/-- A register a block writes is a scratch register. -/
theorem RegName.scratch_reg (hnext : n + k ≤ cgMaxEmitReg + 1) (hx : x.ok 0 k = true) : Scratch n (x.reg srcs n) := by
  cases x with
  | scratch => exact Or.inl rfl
  | src j => exact absurd hx not_ok_src
  | tmp j =>
    have hj : j < k := of_decide_eq_true hx
    exact scratch_nextReg (Nat.le_add_right n j) (by omega)

theorem mem_srcs {j : Nat} (hj : j < srcs.length) : RegName.reg srcs n (.src j) ∈ srcs := by
  rw [RegName.reg, List.getD_eq_getElem?_getD, List.getElem?_eq_getElem hj, Option.getD_some]
  exact List.getElem_mem hj

/-- Other names have other registers than the one that is written. -/
theorem RegName.reg_ne (hsrcs : ∀ r ∈ srcs, Held r n) (hnext : n + k ≤ cgMaxEmitReg + 1) (hx : x.ok srcs.length k = true)
    (hy : y.ok 0 k = true) (hne : x ≠ y) : x.reg srcs n ≠ y.reg srcs n := by
  cases x with
  | src j =>
    intro he
    have hscratch : Scratch n (y.reg srcs n) := scratch_reg hnext hy
    rw [← he] at hscratch
    exact (hsrcs _ (mem_srcs (of_decide_eq_true hx))).not_scratch (by omega) hscratch
  | scratch =>
    cases y with
    | scratch => exact absurd rfl hne
    | src j => exact absurd hy not_ok_src
    | tmp j =>
      have hj : j < k := of_decide_eq_true hy
      exact (nextReg_ne_scratch (by omega)).symm
  | tmp i =>
    have hi : i < k := of_decide_eq_true hx
    cases y with
    | scratch => exact nextReg_ne_scratch (by omega)
    | src j => exact absurd hy not_ok_src
    | tmp j =>
      have hj : j < k := of_decide_eq_true hy
      intro he
      have hnat := congrArg BitVec.toNat he
      rw [reg, reg, toNat_nextReg (by omega), toNat_nextReg (by omega)] at hnat
      exact hne (congrArg RegName.tmp (by omega))

theorem RegName.held_reg (hsrcs : ∀ r ∈ srcs, Held r n) (hnext : n + k ≤ cgMaxEmitReg + 1) (hx : x.ok srcs.length k = true)
    (hscratch : x ≠ .scratch) : Held (x.reg srcs n) (n + k) := by
  cases x with
  | scratch => exact absurd rfl hscratch
  | src j => exact (hsrcs _ (mem_srcs (of_decide_eq_true hx))).imp_left fun h => Nat.lt_of_lt_of_le h (Nat.le_add_right n k)
  | tmp j =>
    have hj : j < k := of_decide_eq_true hx
    refine Or.inl ?_
    rw [reg, toNat_nextReg (by omega)]
    omega

end registers

/-! ## Runs -/

section runs

variable {img : Image κ} (host : Host κ W) {cg : Cg} {f : Frame κ W} {srcs : List Byte} {n k : Nat} {e : RegName → Word}

/-- The registers of the operands and of the block hold these words. -/
def Reads (srcs : List Byte) (n k : Nat) (f : Frame κ W) (e : RegName → Word) : Prop :=
  ∀ x : RegName, x.ok srcs.length k = true → f.regs (x.reg srcs n) = e x

theorem Reads.setReg (hreads : Reads srcs n k f e) (hsrcs : ∀ r ∈ srcs, Held r n) (hnext : n + k ≤ cgMaxEmitReg + 1) {a : RegName}
    (ha : a.ok 0 k = true) (v : Word) : Reads srcs n k (f.setReg (a.reg srcs n) v) (Function.update e a v) := by
  intro x hx
  by_cases heq : x = a
  · subst heq
    rw [Function.update_self, Frame.setReg_same]
  · rw [Function.update_of_ne heq, Frame.setReg_of_ne _ _ (RegName.reg_ne hsrcs hnext hx ha heq)]
    exact hreads x hx

variable (hcode : img.code.length = img.codeCount.toNat)
include hcode

/-- The step of an instruction is as it is evaluated. -/
theorem steps_blockInst (hreads : Reads srcs n k f e) (hsrcs : ∀ r ∈ srcs, Held r n) (hnext : n + k ≤ cgMaxEmitReg + 1) {i : BlockInst}
    (hi : i.ok srcs.length k = true) : ∃ f', Steps img host (i.word (RegName.reg srcs n)) f f' ∧ f.AgreesOff (Scratch n) f' ∧
      Reads srcs n k f' (i.eval e) := by
  cases i with
  | alu op a b c =>
    simp only [BlockInst.ok, Bool.and_eq_true, Option.isSome_iff_exists] at hi
    obtain ⟨⟨⟨⟨g, hg⟩, ha⟩, hb⟩, hc⟩ := hi
    have hrun := steps_alu (f := f) host hcode hg (a.reg srcs n) (b.reg srcs n) (c.reg srcs n)
    rw [hreads b hb, hreads c hc] at hrun
    refine ⟨_, hrun, .setReg _ (RegName.scratch_reg hnext ha), ?_⟩
    rw [BlockInst.eval, hg, Option.getD_some]
    exact hreads.setReg hsrcs hnext ha _
  | mov a b =>
    simp only [BlockInst.ok, Bool.and_eq_true] at hi
    have hrun := steps_mov (f := f) host hcode (a.reg srcs n) (b.reg srcs n) 0
    rw [hreads b hi.2] at hrun
    exact ⟨_, hrun, .setReg _ (RegName.scratch_reg hnext hi.1), hreads.setReg hsrcs hnext hi.1 _⟩
  | movi a imm =>
    exact ⟨_, steps_movi host hcode _ imm, .setReg _ (RegName.scratch_reg hnext hi), hreads.setReg hsrcs hnext hi _⟩

/-- A block runs as it is evaluated. -/
theorem runs_block (hsrcs : ∀ r ∈ srcs, Held r n) (hnext : n + k ≤ cgMaxEmitReg + 1) {block : List BlockInst}
    (hok : block.all (BlockInst.ok srcs.length k) = true) (hreads : Reads srcs n k f e) :
    ∃ f', RunsTo img host (block.map (BlockInst.word (RegName.reg srcs n))) f f' ∧ f.AgreesOff (Scratch n) f' ∧
      Reads srcs n k f' (evalBlock block e) := by
  induction block generalizing f e with
  | nil => exact ⟨f, .nil, .refl _ f, hreads⟩
  | cons i is ih =>
    rw [List.all_cons, Bool.and_eq_true] at hok
    obtain ⟨f₁, hstep₁, hag₁, hreads₁⟩ := steps_blockInst host hcode hreads hsrcs hnext hok.1
    obtain ⟨f', hrun, hag, hreads'⟩ := ih hok.2 hreads₁
    exact ⟨f', hstep₁.runsTo.append hcode hrun, hag₁.trans hag, hreads'⟩

/-- The block, after its registers are allocated. -/
theorem prepares_block (hsrcs : ∀ r ∈ srcs, Held r cg.nextReg) (hnext : cg.nextReg + k ≤ cgMaxEmitReg + 1) (block : List BlockInst)
    (hok : block.all (BlockInst.ok srcs.length k) = true) :
    ∃ f', Prepares img host cg f { cg.emit (block.map (BlockInst.word (RegName.reg srcs cg.nextReg))) with nextReg := cg.nextReg + k } f' ∧
      Reads srcs cg.nextReg k f' (evalBlock block fun x => f.regs (x.reg srcs cg.nextReg)) := by
  obtain ⟨f', hrun, hag, hreads⟩ := runs_block (f := f) host hcode hsrcs hnext hok fun _ _ => rfl
  exact ⟨f', ⟨⟨_, _, rfl, hrun⟩, hag, Nat.le_add_right _ k, hnext⟩, hreads⟩

end runs

end CronoVM
