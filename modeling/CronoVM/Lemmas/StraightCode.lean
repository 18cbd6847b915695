import CronoVM.Lib.HasAt
import CronoVM.Interp.Threaded

/-!
# Straight-line code

`RunsTo img host ws f f'` says that the machine runs through the words `ws`, wherever they stand in the code of the image, and that
this makes `f` of the frame `f'`. Such runs compose, and each instruction the translator puts into straight-line code has its rule.
-/

namespace CronoVM

open Checked Vm

variable {κ W : Type}

/-! ## Frames -/

namespace Frame

/-- The frame with `R[r] = v`. -/
def setReg (f : Frame κ W) (r : Byte) (v : Word) : Frame κ W := { f with regs := Function.update f.regs r v }

/-- The frame with the word `v` at `p`. -/
def setWord (f : Frame κ W) (p : Nat) (v : Word) : Frame κ W := { f with heap := f.heap.setWord p v }

variable (f : Frame κ W) (r r' : Byte) (p : Nat) (v v' : Word)

/-- A register that is set has the value. -/
@[simp] theorem setReg_same : (f.setReg r v).regs r = v := by simp [setReg]

/-- The other registers keep theirs. -/
theorem setReg_of_ne {r r' : Byte} (h : r' ≠ r) : (f.setReg r v).regs r' = f.regs r' := by simp [setReg, h]

/-- A register is not in memory. -/
@[simp] theorem setReg_heap : (f.setReg r v).heap = f.heap := rfl

/-- The last value counts. -/
@[simp] theorem setReg_setReg : (f.setReg r v).setReg r v' = f.setReg r v' := by
  simp only [setReg, Function.update_idem]

/-- A word in memory is no register. -/
@[simp] theorem setWord_regs : (f.setWord p v).regs = f.regs := rfl

/-- The memory after a word is stored. -/
@[simp] theorem setWord_heap : (f.setWord p v).heap = f.heap.setWord p v := rfl

end Frame

/-! ## Runs -/

/-- The machine runs through `ws`, wherever it stands in the code, and `f` becomes `f'`, whatever their pc. -/
def RunsTo (img : Image κ) (host : Host κ W) (ws : List Word) (f f' : Frame κ W) : Prop :=
  ∀ pc : Word, HasAt img.code pc.toNat ws →
    Exec.Reaches (Threaded.step img host) { f with pc := pc } { f' with pc := pc + BitVec.ofNat 32 ws.length }

namespace RunsTo

variable {img : Image κ} {host : Host κ W} {f g h : Frame κ W} {ws us : List Word}

/-- No words do nothing. -/
theorem nil : RunsTo img host [] f f := fun pc _ => by
  have hpc : pc + BitVec.ofNat 32 ([] : List Word).length = pc := BitVec.add_zero pc
  rw [hpc]
  exact .refl

/-- One run after the other. -/
theorem append (hcode : img.code.length = img.codeCount.toNat) (hws : RunsTo img host ws f g) (hus : RunsTo img host us g h) :
    RunsTo img host (ws ++ us) f h := by
  intro pc hat
  have hend := hat.left.length_le
  have hlt := img.codeCount.isLt
  have hpc : (pc + BitVec.ofNat 32 ws.length).toNat = pc.toNat + ws.length := by
    rw [BitVec.toNat_add, BitVec.toNat_ofNat]
    omega
  have hsum : pc + BitVec.ofNat 32 (ws ++ us).length = pc + BitVec.ofNat 32 ws.length + BitVec.ofNat 32 us.length := by
    rw [List.length_append, BitVec.ofNat_add, BitVec.add_assoc]
  rw [hsum]
  exact (hws pc hat.left).trans (hus _ (by rw [hpc]; exact hat.right))

end RunsTo

/-- One step of the machine takes it over `w`. -/
def Steps (img : Image κ) (host : Host κ W) (w : Word) (f f' : Frame κ W) : Prop :=
  ∀ pc : Word, HasAt img.code pc.toNat [w] → Threaded.step img host { f with pc := pc } = .val () { f' with pc := pc + 1 }

namespace Steps

variable {img : Image κ} {host : Host κ W} {f g : Frame κ W}

/-- One instruction whose handler leaves the pc alone. -/
theorem one (hcode : img.code.length = img.codeCount.toNat) {w : Word} {l : Threaded.Label} (hjt : Threaded.jt (instOp w) = some l)
    (hrun : ∀ pc, Threaded.handler img host w (instA w) (instB w) (instC w) l { f with pc := pc } = .val () { g with pc := pc }) :
    Steps img host w f g := by
  intro pc hat
  have hend := hat.length_le
  rw [List.length_singleton] at hend
  have hfetch : img.code.getD pc.toNat 0 = w := hat.getD (k := 0) (by simp) 0
  have hpc : ¬pc ≥ img.codeCount := by
    simp only [ge_iff_le, BitVec.le_def]
    omega
  have hfail : (failIf (pc ≥ img.codeCount) .badPc : Vm κ W Unit) { f with pc := pc } = .val () { f with pc := pc } := if_neg hpc
  have hcodeAt : (codeAt img pc : Vm κ W Word) { f with pc := pc } = .val w { f with pc := pc } := by
    simp only [codeAt, Exec.run_bind, Exec.run_demand_of _ (show pc.toNat < img.code.length by omega), Exec.run_pure, hfetch]
  simp only [Threaded.step, Exec.run_bind, getPc, Exec.run_get, Exec.run_pure, hfail, hcodeAt, setPc, Exec.run_modify, hjt]
  exact hrun (pc + 1)

/-- A word that steps is a run of one word. -/
theorem runsTo {w : Word} (h : Steps img host w f g) : RunsTo img host [w] f g := fun pc hat => .step .refl (h pc hat)

end Steps

/-- A word runs as its label does in the threaded build. -/
theorem RunsTo.one {img : Image κ} {host : Host κ W} {f g : Frame κ W} (hcode : img.code.length = img.codeCount.toNat) {w : Word}
    {l : Threaded.Label} (hjt : Threaded.jt (instOp w) = some l)
    (hrun : ∀ pc, Threaded.handler img host w (instA w) (instB w) (instC w) l { f with pc := pc } = .val () { g with pc := pc }) :
    RunsTo img host [w] f g :=
  (Steps.one hcode hjt hrun).runsTo

/-- The machine runs through `ws`, wherever it stands in the code, and ends in a frame with `P`, which may depend on the place. -/
def RunsInto (img : Image κ) (host : Host κ W) (ws : List Word) (f : Frame κ W) (P : Frame κ W → Prop) : Prop :=
  ∀ pc : Word, HasAt img.code pc.toNat ws →
    ∃ g, Exec.Reaches (Threaded.step img host) { f with pc := pc } { g with pc := pc + BitVec.ofNat 32 ws.length } ∧ P g

namespace RunsInto

variable {img : Image κ} {host : Host κ W} {f g : Frame κ W} {ws us : List Word} {P Q : Frame κ W → Prop}

/-- A run to a state with the property. -/
theorem of_runs (h : RunsTo img host ws f g) (hg : P g) : RunsInto img host ws f P := fun pc hat => ⟨g, h pc hat, hg⟩

/-- A weaker property is reached as well. -/
theorem mono (hPQ : ∀ g, P g → Q g) (h : RunsInto img host ws f P) : RunsInto img host ws f Q := by
  intro pc hat
  obtain ⟨g, hreach, hg⟩ := h pc hat
  exact ⟨g, hreach, hPQ g hg⟩

/-- One run after the other. -/
theorem append (hcode : img.code.length = img.codeCount.toNat) (hws : RunsInto img host ws f P)
    (hus : ∀ g, P g → RunsInto img host us g Q) : RunsInto img host (ws ++ us) f Q := by
  intro pc hat
  have hend := hat.left.length_le
  have hlt := img.codeCount.isLt
  have hpc : (pc + BitVec.ofNat 32 ws.length).toNat = pc.toNat + ws.length := by
    rw [BitVec.toNat_add, BitVec.toNat_ofNat]
    omega
  have hsum : pc + BitVec.ofNat 32 (ws ++ us).length = pc + BitVec.ofNat 32 ws.length + BitVec.ofNat 32 us.length := by
    rw [List.length_append, BitVec.ofNat_add, BitVec.add_assoc]
  obtain ⟨g, hreach, hg⟩ := hws pc hat.left
  obtain ⟨h, hreach', hh⟩ := hus g hg _ (by rw [hpc]; exact hat.right)
  exact ⟨h, by rw [hsum]; exact hreach.trans hreach', hh⟩

/-- A run that goes on. -/
theorem after (hcode : img.code.length = img.codeCount.toNat) (hws : RunsTo img host ws f g) (hus : RunsInto img host us g Q) :
    RunsInto img host (ws ++ us) f Q := by
  refine (RunsInto.of_runs (P := fun h => h = g) hws rfl).append hcode fun h hh => ?_
  subst hh
  exact hus

end RunsInto

/-! ## Instructions -/

section instructions

variable {img : Image κ} {host : Host κ W} {f : Frame κ W}

/-- To read a register. -/
theorem run_reg (a : Byte) : (reg a : Vm κ W Word) f = .val (f.regs a) f := by
  have ha : a.toNat < regCount := a.isLt
  simp [reg, regAt, ha]

/-- To write a register. -/
theorem run_setReg (a : Byte) (v : Word) : (setReg a v : Vm κ W Unit) f = .val () (f.setReg a v) := by
  have ha : a.toNat < regCount := a.isLt
  simp [setReg, setRegAt, ha, Frame.setReg]

/-- The word at `p` lies in the memory of the image. -/
def InMemory (img : Image κ) (f : Frame κ W) (p : Word) : Prop := f.heap.size = img.memSize.toNat ∧ p.toNat + 4 ≤ f.heap.size

/-- An address in memory passes the bounds check. -/
theorem InMemory.check {p : Word} (h : InMemory img f p) : ¬(p > img.memSize ∨ img.memSize - p < 4) := by
  have hp := h.2
  rw [h.1] at hp
  have hle : p ≤ img.memSize := by rw [BitVec.le_def]; omega
  have hsub := BitVec.toNat_sub_of_le hle
  have h4 : (4 : Word).toNat = 4 := rfl
  simp only [gt_iff_lt, BitVec.lt_def, not_or, hsub]
  omega

/-- To read a word in memory. -/
theorem run_load32 {p : Word} (h : InMemory img f p) : (load32 p.toNat : Vm κ W Word) f = .val (f.heap.word p.toNat) f := by
  simp [load32, h.2]

/-- To write a word in memory. -/
theorem run_store32 {p : Word} (v : Word) (h : InMemory img f p) :
    (store32 p.toNat v : Vm κ W Unit) f = .val () (f.setWord p.toNat v) := by
  simp [store32, writeAt, h.2, Frame.setWord]

variable (hcode : img.code.length = img.codeCount.toNat) (host)
include hcode

/-- `MOV`. -/
theorem steps_mov (a b c : Byte) : Steps img host (encR .mov a b c) f (f.setReg a (f.regs b)) := by
  refine Steps.one hcode (l := .lMov) (by rw [instOp_encR]; rfl) fun pc => ?_
  simp only [instA_encR, instB_encR, Threaded.handler, Exec.run_bind, run_reg, run_setReg]
  rfl

/-- `MOV` copies a register. -/
theorem runs_mov (a b c : Byte) : RunsTo img host [encR .mov a b c] f (f.setReg a (f.regs b)) :=
  (steps_mov host hcode a b c).runsTo

/-- `ADD`. -/
theorem runs_add (a b c : Byte) : RunsTo img host [encR .add a b c] f (f.setReg a (f.regs b + f.regs c)) := by
  refine RunsTo.one hcode (l := .lAdd) (by rw [instOp_encR]; rfl) fun pc => ?_
  simp only [instA_encR, instB_encR, instC_encR, Threaded.handler, Exec.run_bind, run_reg, run_setReg]
  rfl

/-- `SUB`. -/
theorem runs_sub (a b c : Byte) : RunsTo img host [encR .sub a b c] f (f.setReg a (f.regs b - f.regs c)) := by
  refine RunsTo.one hcode (l := .lSub) (by rw [instOp_encR]; rfl) fun pc => ?_
  simp only [instA_encR, instB_encR, instC_encR, Threaded.handler, Exec.run_bind, run_reg, run_setReg]
  rfl

/-- `MOVI`. -/
theorem steps_movi (a : Byte) (imm : BitVec 16) : Steps img host (encI16 .movi a imm) f (f.setReg a (imm.signExtend 32)) := by
  refine Steps.one hcode (l := .lMovi) (by rw [instOp_encI16]; rfl) fun pc => ?_
  simp only [instA_encI16, instImm16_encI16, Threaded.handler, run_setReg]
  rfl

/-- `MOVI` sign-extends its immediate. -/
theorem runs_movi (a : Byte) (imm : BitVec 16) : RunsTo img host [encI16 .movi a imm] f (f.setReg a (imm.signExtend 32)) :=
  (steps_movi host hcode a imm).runsTo

/-- `MOVHI`. -/
theorem steps_movhi (a : Byte) (imm : BitVec 16) :
    Steps img host (encI16 .movhi a imm) f (f.setReg a (imm.setWidth 32 <<< 16 ||| (f.regs a &&& 0xFFFF))) := by
  refine Steps.one hcode (l := .lMovhi) (by rw [instOp_encI16]; rfl) fun pc => ?_
  simp only [instA_encI16, instImm16_encI16, Threaded.handler, Exec.run_bind, run_reg, run_setReg]
  rfl

/-- `MOVHI` replaces the upper half. -/
theorem runs_movhi (a : Byte) (imm : BitVec 16) :
    RunsTo img host [encI16 .movhi a imm] f (f.setReg a (imm.setWidth 32 <<< 16 ||| (f.regs a &&& 0xFFFF))) :=
  (steps_movhi host hcode a imm).runsTo

/-- `LDW` of a word in memory. -/
theorem runs_ldw (a b c : Byte) (h : InMemory img f (f.regs b)) :
    RunsTo img host [encR .ldw a b c] f (f.setReg a (f.heap.word (f.regs b).toNat)) := by
  refine RunsTo.one hcode (l := .lLdw) (by rw [instOp_encR]; rfl) fun pc => ?_
  have hpc : InMemory img { f with pc := pc } (f.regs b) := h
  simp only [instA_encR, instB_encR, Threaded.handler, Exec.run_bind, run_reg, failIf, Exec.run_stopIf_of_not _ h.check,
    run_load32 hpc, run_setReg]
  rfl

/-- `STW` of a word in memory. -/
theorem steps_stw (a b c : Byte) (h : InMemory img f (f.regs b)) :
    Steps img host (encR .stw a b c) f (f.setWord (f.regs b).toNat (f.regs c)) := by
  refine Steps.one hcode (l := .lStw) (by rw [instOp_encR]; rfl) fun pc => ?_
  have hpc : InMemory img { f with pc := pc } (f.regs b) := h
  simp only [instB_encR, instC_encR, Threaded.handler, Exec.run_bind, run_reg, failIf, Exec.run_stopIf_of_not _ h.check,
    run_store32 _ hpc]
  rfl

/-- `STW` to an address in memory. -/
theorem runs_stw (a b c : Byte) (h : InMemory img f (f.regs b)) :
    RunsTo img host [encR .stw a b c] f (f.setWord (f.regs b).toNat (f.regs c)) :=
  (steps_stw host hcode a b c h).runsTo

end instructions

end CronoVM
