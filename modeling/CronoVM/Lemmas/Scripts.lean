import CronoVM.Lemmas.Blocks
import CronoVM.Lemmas.Structured
import CronoVM.Lemmas.WideWords

/-!
# Blocks with constants, and loops of them

A script is a block that loads constants too. A loop over a script runs as the script is iterated.
-/

namespace CronoVM

open Checked Ir

variable {κ W : Type}

/-! ## Scripts -/

/-- An instruction of a block, or the load of a constant. -/
inductive ScriptInst where
  | op (i : BlockInst)
  | load (a : RegName) (imm : Word)

namespace ScriptInst

/-- The words on the registers. -/
def words (ρ : RegName → Byte) : ScriptInst → List Word
  | op i => [i.word ρ]
  | load a imm => loadConst32Words (ρ a) imm

/-- What it makes of the words in the registers. -/
def eval (e : RegName → Word) : ScriptInst → RegName → Word
  | op i => i.eval e
  | load a imm => Function.update e a imm

/-- It writes no operand. -/
def ok (m k : Nat) : ScriptInst → Bool
  | op i => i.ok m k
  | load a _ => a.ok 0 k

end ScriptInst

/-- The words of a script. -/
def scriptWords (ρ : RegName → Byte) (script : List ScriptInst) : List Word := script.flatMap (ScriptInst.words ρ)

/-- What a script makes of the words in the registers. -/
def evalScript : List ScriptInst → (RegName → Word) → RegName → Word
  | [], e => e
  | i :: is, e => evalScript is (i.eval e)

theorem evalScript_append (xs ys : List ScriptInst) (e : RegName → Word) : evalScript (xs ++ ys) e = evalScript ys (evalScript xs e) := by
  induction xs generalizing e with
  | nil => rfl
  | cons i is ih => exact ih (i.eval e)

/-! ## Lengths -/

theorem length_scriptWords (ρ : RegName → Byte) (script : List ScriptInst) : (scriptWords ρ script).length ≤ 2 * script.length := by
  induction script with
  | nil => exact Nat.le_refl 0
  | cons i is ih =>
    have hlen : (i.words ρ).length ≤ 2 := by
      cases i with
      | op i => exact Nat.le_succ 1
      | load a imm => exact length_loadConst32Words_le (ρ a) imm
    have hwords : scriptWords ρ (i :: is) = i.words ρ ++ scriptWords ρ is := rfl
    rw [hwords, List.length_append, List.length_cons]
    omega

/-! ## Emission -/

theorem Cg.extend_emit (cg : Cg) (ws us : List Word) (n : Nat) : (cg.extend ws n).emit us = cg.extend (ws ++ us) n := by
  simp only [Cg.extend, Cg.emit, List.append_assoc]

/-- What follows the load of a constant in a long sequence. -/
theorem wp_loadNext {α : Type} {cg : Cg} {ws : List Word} {n : Nat} {rd : Byte} {imm : Word} {k : Unit → Emit α} {Q : α → Cg → Prop}
    {E : CgError → Cg → Prop} (h : Exec.wp (k ()) Q E (cg.extend (ws ++ loadConst32Words rd imm) n)) :
    Exec.wp (cgEmitLoadConst32 rd imm >>= k) Q E (cg.extend ws n) := by
  rw [Exec.wp_bind, wp_cgEmitLoadConst32, Cg.extend_emit]
  exact h

/-! ## Runs -/

section runs

variable {img : Image κ} (host : Host κ W) {cg : Cg} {f : Frame κ W} {srcs : List Byte} {n k : Nat} {e : RegName → Word}

variable (hcode : img.code.length = img.codeCount.toNat)
include hcode

theorem runsIn_loadConst32 (rd : Byte) (imm : Word) :
    RunsIn img host (loadConst32Words rd imm).length (loadConst32Words rd imm) f (f.setReg rd imm) := by
  unfold loadConst32Words
  split
  case isTrue h =>
    have hmovi := steps_movi (f := f) host hcode rd (imm.setWidth 16)
    rw [signExtend_setWidth h] at hmovi
    exact .of_steps hmovi
  case isFalse h =>
    have hmovi := steps_movi (f := f) host hcode rd (imm.setWidth 16)
    have hmovhi := steps_movhi (f := f.setReg rd ((imm.setWidth 16).signExtend 32)) host hcode rd ((imm >>> 16).setWidth 16)
    rw [Frame.setReg_same, movhi_movi, Frame.setReg_setReg] at hmovhi
    exact (RunsIn.of_steps hmovi).append hcode (.of_steps hmovhi)

theorem runsIn_scriptInst (hreads : Reads srcs n k f e) (hsrcs : ∀ r ∈ srcs, Held r n) (hnext : n + k ≤ cgMaxEmitReg + 1) {i : ScriptInst}
    (hi : i.ok srcs.length k = true) : ∃ f', RunsIn img host (i.words (RegName.reg srcs n)).length (i.words (RegName.reg srcs n)) f f' ∧
      f.AgreesOff (Scratch n) f' ∧ Reads srcs n k f' (i.eval e) := by
  cases i with
  | op i =>
    obtain ⟨f', hstep, hag, hreads'⟩ := steps_blockInst host hcode hreads hsrcs hnext hi
    exact ⟨f', .of_steps hstep, hag, hreads'⟩
  | load a imm =>
    exact ⟨_, runsIn_loadConst32 host hcode _ imm, .setReg _ (RegName.scratch_reg hnext hi), hreads.setReg hsrcs hnext hi imm⟩

/-- A script runs as it is evaluated, in one step a word. -/
theorem runsIn_script (hsrcs : ∀ r ∈ srcs, Held r n) (hnext : n + k ≤ cgMaxEmitReg + 1) (script : List ScriptInst)
    (hok : script.all (ScriptInst.ok srcs.length k) = true) (hreads : Reads srcs n k f e) :
    ∃ f', RunsIn img host (scriptWords (RegName.reg srcs n) script).length (scriptWords (RegName.reg srcs n) script) f f' ∧
      f.AgreesOff (Scratch n) f' ∧ Reads srcs n k f' (evalScript script e) := by
  induction script generalizing f e with
  | nil => exact ⟨f, .nil, .refl _ f, hreads⟩
  | cons i is ih =>
    rw [List.all_cons, Bool.and_eq_true] at hok
    obtain ⟨f₁, hrun₁, hag₁, hreads₁⟩ := runsIn_scriptInst host hcode hreads hsrcs hnext hok.1
    obtain ⟨f', hrun, hag, hreads'⟩ := ih hok.2 hreads₁
    have hwords : scriptWords (RegName.reg srcs n) (i :: is) = i.words (RegName.reg srcs n) ++ scriptWords (RegName.reg srcs n) is := rfl
    refine ⟨f', ?_, hag₁.trans hag, hreads'⟩
    rw [hwords, List.length_append]
    exact hrun₁.append hcode hrun

/-- The script, after its registers are allocated. -/
theorem prepares_script (hsrcs : ∀ r ∈ srcs, Held r cg.nextReg) (hnext : cg.nextReg + k ≤ cgMaxEmitReg + 1) (script : List ScriptInst)
    (hok : script.all (ScriptInst.ok srcs.length k) = true) :
    ∃ f', Prepares img host cg f (cg.extend (scriptWords (RegName.reg srcs cg.nextReg) script) k) f' ∧
      Reads srcs cg.nextReg k f' (evalScript script fun x => f.regs (x.reg srcs cg.nextReg)) := by
  obtain ⟨f', hrun, hag, hreads⟩ := runsIn_script (f := f) host hcode hsrcs hnext script hok fun _ _ => rfl
  exact ⟨f', ⟨⟨_, _, rfl, hrun.runsTo⟩, hag, Nat.le_add_right _ k, hnext⟩, hreads⟩

/-- A loop over a script, as long as two registers are different. -/
theorem loops_script (hsrcs : ∀ r ∈ srcs, Held r n) (hnext : n + k ≤ cgMaxEmitReg + 1) (body : List ScriptInst) (turns : Nat)
    (hok : body.all (ScriptInst.ok srcs.length k) = true) {x z : RegName} (hx : x.ok srcs.length k = true) (hz : z.ok srcs.length k = true)
    (hreads : Reads srcs n k f e) (hgo : ∀ j < turns, (evalScript body)^[j] e x ≠ (evalScript body)^[j] e z)
    (hend : (evalScript body)^[turns] e x = (evalScript body)^[turns] e z) :
    ∃ g, Loops img host (scriptWords (RegName.reg srcs n) body).length (x.reg srcs n) (z.reg srcs n)
      (scriptWords (RegName.reg srcs n) body) turns f g ∧ f.AgreesOff (Scratch n) g ∧ Reads srcs n k g ((evalScript body)^[turns] e) := by
  induction turns generalizing f e with
  | zero =>
    refine ⟨f, .done ?_, .refl _ f, hreads⟩
    rw [hreads x hx, hreads z hz]
    exact hend
  | succ turns ih =>
    obtain ⟨f₁, hrun, hag₁, hreads₁⟩ := runsIn_script host hcode hsrcs hnext _ hok hreads
    obtain ⟨g, hloops, hag, hreads'⟩ := ih hreads₁ (fun j hj => hgo (j + 1) (Nat.succ_lt_succ hj)) hend
    refine ⟨g, .turn ?_ hrun hloops, hag₁.trans hag, hreads'⟩
    rw [hreads x hx, hreads z hz]
    exact hgo 0 (Nat.succ_pos turns)

/-- A loop over two scripts that is left between them. -/
theorem breaks_script (hsrcs : ∀ r ∈ srcs, Held r n) (hnext : n + k ≤ cgMaxEmitReg + 1) (pre body : List ScriptInst) (turns : Nat)
    (hpre : pre.all (ScriptInst.ok srcs.length k) = true) (hok : body.all (ScriptInst.ok srcs.length k) = true) {x z : RegName}
    (hx : x.ok srcs.length k = true) (hz : z.ok srcs.length k = true) (hreads : Reads srcs n k f e)
    (hgo : ∀ j < turns, evalScript pre ((evalScript body ∘ evalScript pre)^[j] e) x = evalScript pre ((evalScript body ∘ evalScript pre)^[j] e) z)
    (hend : evalScript pre ((evalScript body ∘ evalScript pre)^[turns] e) x ≠ evalScript pre ((evalScript body ∘ evalScript pre)^[turns] e) z) :
    ∃ g, Breaks img host (scriptWords (RegName.reg srcs n) pre).length (scriptWords (RegName.reg srcs n) body).length (x.reg srcs n)
      (z.reg srcs n) (scriptWords (RegName.reg srcs n) pre) (scriptWords (RegName.reg srcs n) body) turns f g ∧
      f.AgreesOff (Scratch n) g ∧ Reads srcs n k g (evalScript pre ((evalScript body ∘ evalScript pre)^[turns] e)) := by
  induction turns generalizing f e with
  | zero =>
    obtain ⟨g, hrun, hag, hreads'⟩ := runsIn_script host hcode hsrcs hnext _ hpre hreads
    refine ⟨g, .done hrun ?_, hag, hreads'⟩
    rw [hreads' x hx, hreads' z hz]
    exact hend
  | succ turns ih =>
    obtain ⟨f₁, hrun₁, hag₁, hreads₁⟩ := runsIn_script host hcode hsrcs hnext _ hpre hreads
    obtain ⟨f₂, hrun₂, hag₂, hreads₂⟩ := runsIn_script host hcode hsrcs hnext _ hok hreads₁
    obtain ⟨g, hbreaks, hag, hreads'⟩ := ih hreads₂ (fun j hj => hgo (j + 1) (Nat.succ_lt_succ hj)) hend
    refine ⟨g, .turn hrun₁ ?_ hrun₂ hbreaks, (hag₁.trans hag₂).trans hag, hreads'⟩
    rw [hreads₁ x hx, hreads₁ z hz]
    exact hgo 0 (Nat.succ_pos turns)

end runs

end CronoVM
