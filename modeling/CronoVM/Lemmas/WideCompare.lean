import CronoVM.Lemmas.Wide64

/-!
# Comparisons of two words

The code of an `icmp` on 64-bit values compares the words and joins the results.
-/

namespace CronoVM

open Checked Ir NarrowInt TwoWord

variable {κ W : Type}


theorem boolWord_and (a b : Bool) : boolWord a &&& boolWord b = boolWord (a && b) := by
  cases a <;> cases b <;> rfl

theorem boolWord_or (a b : Bool) : boolWord a ||| boolWord b = boolWord (a || b) := by
  cases a <;> cases b <;> rfl

section comparisons

variable {img : Image κ} (host : Host κ W) {cg : Cg} {f : Frame κ W} {a b : Byte × Byte} {x y : BitVec 64} {dst : Byte}

variable (hcode : img.code.length = img.codeCount.toNat)
include hcode

/-- A block, and an instruction that computes the result from what the block left. -/
theorem Defines.of_block (srcs : List Byte) (hsrcs : ∀ r ∈ srcs, Held r cg.nextReg) (k : Nat) (hnext : cg.nextReg + k ≤ cgMaxEmitReg + 1)
    (block : List BlockInst) (hblock : block.all (BlockInst.ok srcs.length k) = true) {op : Opcode} {g : Word → Word → Word}
    (hg : aluOp op = some g) (b c : RegName) (hb : b.ok srcs.length k = true) (hc : c.ok srcs.length k = true) {v : Word}
    (hv : g (evalBlock block (fun x => f.regs (x.reg srcs cg.nextReg)) b) (evalBlock block (fun x => f.regs (x.reg srcs cg.nextReg)) c) = v) :
    Defines img host cg f dst v { cg.emit (block.map (BlockInst.word (RegName.reg srcs cg.nextReg)) ++
      [encR op dst (b.reg srcs cg.nextReg) (c.reg srcs cg.nextReg)]) with nextReg := cg.nextReg + k } := by
  obtain ⟨f', hprep, hreads⟩ := prepares_block (f := f) host hcode hsrcs hnext block hblock
  have hrun := runs_alu (f := f') host hcode hg dst (b.reg srcs cg.nextReg) (c.reg srcs cg.nextReg)
  rw [hreads b hb, hreads c hc, hv] at hrun
  rw [← Cg.emit_emit]
  exact (Defines.of_runs hnext hrun).after hcode hprep

/-- The high words are compared first; where they are equal, the low words are. -/
theorem wp_cgIcmpOrdered (hpool : cg.freeList = []) {hcmp lcmp : Opcode} {gh gl : Word → Word → Word} (hgh : aluOp hcmp = some gh)
    (hgl : aluOp lcmp = some gl) {less below : Word → Word → Bool} (hless : ∀ u v, gh u v = boolWord (less u v))
    (hbelow : ∀ u v, gl u v = boolWord (below u v)) (ha : HeldWide cg f a x) (hb : HeldWide cg f b y) : Exec.wp (do
      let hiLt ← cgAllocReg
      let hiEq ← cgAllocReg
      let loR ← cgAllocReg
      cgEmit (encR hcmp hiLt a.2 b.2)
      cgEmit (encR .cmpEq hiEq a.2 b.2)
      cgEmit (encR lcmp loR a.1 b.1)
      cgEmit (encR .and loR hiEq loR)
      cgEmit (encR .or dst hiLt loR)) (fun _ => Defines img host cg f dst (boolWord (less (f.regs a.2) (f.regs b.2) ||
        (decide (f.regs a.2 = f.regs b.2) && below (f.regs a.1) (f.regs b.1))))) (fun e _ => e.OfOperand) cg := by
  refine wp_alloc hpool fun _ => wp_alloc hpool fun _ => wp_alloc hpool fun (hroom : ¬cg.nextReg + 1 + 1 > cgMaxEmitReg) => ?_
  simp only [Exec.wp_bind, wp_cgEmit, Cg.emit_emit]
  refine .of_block host hcode _ (held_srcs ha hb) 3 (by omega) [.alu hcmp (.tmp 0) (.src 1) (.src 3), .alu .cmpEq (.tmp 1) (.src 1) (.src 3),
    .alu lcmp (.tmp 2) (.src 0) (.src 2), .alu .and (.tmp 2) (.tmp 1) (.tmp 2)] ?_ (rfl : aluOp .or = some _) (.tmp 0) (.tmp 2) rfl rfl ?_
  · simp only [List.all_cons, List.all_nil, BlockInst.ok, hgh, hgl]
    rfl
  · have hsame : ∀ u v : Word, boolWord (decide (u = v)) = if u = v then 1 else 0 := by simp [boolWord]
    rw [← boolWord_or, ← boolWord_and, ← hless, ← hbelow, hsame]
    simp only [evalBlock, BlockInst.eval, hgh, hgl]
    rfl

/-- The words are compared one by one; the results are joined. -/
theorem wp_cgIcmpWords (hpool : cg.freeList = []) {cmp comb : Opcode} {gc gb : Word → Word → Word} (hgc : aluOp cmp = some gc)
    (hgb : aluOp comb = some gb) (ha : HeldWide cg f a x) (hb : HeldWide cg f b y) : Exec.wp (do
      let tlo ← cgAllocReg
      let thi ← cgAllocReg
      cgEmit (encR cmp tlo a.1 b.1)
      cgEmit (encR cmp thi a.2 b.2)
      cgEmit (encR comb dst tlo thi)) (fun _ => Defines img host cg f dst (gb (gc (f.regs a.1) (f.regs b.1)) (gc (f.regs a.2) (f.regs b.2))))
      (fun e _ => e.OfOperand) cg := by
  refine wp_alloc hpool fun _ => wp_alloc hpool fun (hroom : ¬cg.nextReg + 1 > cgMaxEmitReg) => ?_
  simp only [Exec.wp_bind, wp_cgEmit, Cg.emit_emit]
  refine .of_block host hcode _ (held_srcs ha hb) 2 (by omega) [.alu cmp (.tmp 0) (.src 0) (.src 2), .alu cmp (.tmp 1) (.src 1) (.src 3)] ?_
    hgb (.tmp 0) (.tmp 1) rfl rfl ?_
  · simp only [List.all_cons, List.all_nil, BlockInst.ok, hgc]
    rfl
  · simp only [evalBlock, BlockInst.eval, hgc]
    rfl

/-- `icmp` of two-word values. -/
theorem wp_cgIcmpWide (hok : cg.Ok) (hin : InFrame cg img f) (p : IntPred) (u v : Val) : Exec.wp (cgIcmpWide p u v dst)
    (fun _ => Defines img host cg f dst (boolWord (p.eval (wideVal cg f u) (wideVal cg f v)))) (fun e _ => e.OfOperand) cg := by
  unfold cgIcmpWide
  refine wp_wide (wp_cgI64Read host hcode hok hin u) fun a cg₁ f₁ hprep₁ ha => ?_
  refine wp_wide (wp_cgI64Read host hcode (hprep₁.ok hok) (hprep₁.inFrame hin) v) fun b cg₂ f₂ hprep₂ hb => ?_
  rw [hprep₁.wideVal_eq hok] at hb
  replace ha := ha.later hprep₂
  have hprep := hprep₁.trans hcode hprep₂
  have hpool := (hprep.ok hok).pool
  have hdone : ∀ {w : Word} {cg' : Cg}, Defines img host cg₂ f₂ dst w cg' → w = boolWord (p.eval (wideVal cg f u) (wideVal cg f v)) →
      Defines img host cg f dst (boolWord (p.eval (wideVal cg f u) (wideVal cg f v))) cg' := by
    rintro w cg' hdef rfl
    exact hdef.after hcode hprep
  rw [← ha.val, ← hb.val] at hdone ⊢
  have hult : ∀ u v : Word, (if u < v then 1 else 0 : Word) = boolWord (u.ult v) := by simp [boolWord, BitVec.ult_iff_lt]
  have hule : ∀ u v : Word, (if u ≤ v then 1 else 0 : Word) = boolWord (u.ule v) := by simp [boolWord, BitVec.ule_iff_le]
  have hslt : ∀ u v : Word, (if u.slt v then 1 else 0 : Word) = boolWord (u.slt v) := fun _ _ => rfl
  have heq : ∀ u v : Word, (if u = v then 1 else 0 : Word) = boolWord (decide (u = v)) := by simp [boolWord]
  have hne : ∀ u v : Word, (if u ≠ v then 1 else 0 : Word) = boolWord (decide (u ≠ v)) := by simp [boolWord]
  cases p with
  | eq =>
    refine Exec.wp_mono (fun _ _ hdef => hdone hdef ?_) (fun _ _ he => he)
      (wp_cgIcmpWords host hcode hpool (rfl : aluOp .cmpEq = some _) (rfl : aluOp .and = some _) ha hb)
    rw [heq, heq, boolWord_and, Bool.and_comm]
    exact congrArg boolWord (decide_eq_append _ _ _ _).symm
  | ne =>
    refine Exec.wp_mono (fun _ _ hdef => hdone hdef ?_) (fun _ _ he => he)
      (wp_cgIcmpWords host hcode hpool (rfl : aluOp .cmpNe = some _) (rfl : aluOp .or = some _) ha hb)
    rw [hne, hne, boolWord_or, Bool.or_comm]
    exact congrArg boolWord (decide_ne_append _ _ _ _).symm
  | ult =>
    refine Exec.wp_mono (fun _ _ hdef => hdone hdef (congrArg boolWord (ult_append _ _ _ _).symm)) (fun _ _ he => he)
      (wp_cgIcmpOrdered host hcode hpool (rfl : aluOp .cmpLtu = some _) (rfl : aluOp .cmpLtu = some _) hult hult ha hb)
  | ule =>
    refine Exec.wp_mono (fun _ _ hdef => hdone hdef (congrArg boolWord (ule_append _ _ _ _).symm)) (fun _ _ he => he)
      (wp_cgIcmpOrdered host hcode hpool (rfl : aluOp .cmpLtu = some _) (rfl : aluOp .cmpLeu = some _) hult hule ha hb)
  | slt =>
    refine Exec.wp_mono (fun _ _ hdef => hdone hdef (congrArg boolWord (slt_append (by decide) _ _ _ _).symm)) (fun _ _ he => he)
      (wp_cgIcmpOrdered host hcode hpool (rfl : aluOp .cmpLt = some _) (rfl : aluOp .cmpLtu = some _) hslt hult ha hb)
  | sle =>
    refine Exec.wp_mono (fun _ _ hdef => hdone hdef (congrArg boolWord (sle_append (by decide) _ _ _ _).symm)) (fun _ _ he => he)
      (wp_cgIcmpOrdered host hcode hpool (rfl : aluOp .cmpLt = some _) (rfl : aluOp .cmpLeu = some _) hslt hule ha hb)
  | ugt =>
    refine Exec.wp_mono (fun _ _ hdef => hdone hdef (congrArg boolWord (ult_append _ _ _ _).symm)) (fun _ _ he => he)
      (wp_cgIcmpOrdered host hcode hpool (rfl : aluOp .cmpLtu = some _) (rfl : aluOp .cmpLtu = some _) hult hult hb ha)
  | uge =>
    refine Exec.wp_mono (fun _ _ hdef => hdone hdef (congrArg boolWord (ule_append _ _ _ _).symm)) (fun _ _ he => he)
      (wp_cgIcmpOrdered host hcode hpool (rfl : aluOp .cmpLtu = some _) (rfl : aluOp .cmpLeu = some _) hult hule hb ha)
  | sgt =>
    refine Exec.wp_mono (fun _ _ hdef => hdone hdef (congrArg boolWord (slt_append (by decide) _ _ _ _).symm)) (fun _ _ he => he)
      (wp_cgIcmpOrdered host hcode hpool (rfl : aluOp .cmpLt = some _) (rfl : aluOp .cmpLtu = some _) hslt hult hb ha)
  | sge =>
    refine Exec.wp_mono (fun _ _ hdef => hdone hdef (congrArg boolWord (sle_append (by decide) _ _ _ _).symm)) (fun _ _ he => he)
      (wp_cgIcmpOrdered host hcode hpool (rfl : aluOp .cmpLt = some _) (rfl : aluOp .cmpLeu = some _) hslt hule hb ha)

end comparisons

end CronoVM
