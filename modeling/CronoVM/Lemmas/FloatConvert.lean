import CronoVM.Lemmas.Narrow
import CronoVM.Lemmas.RuntimeCall
import CronoVM.Translator.RuntimeCall

/-!
# Operands of conversions to floating point

What stands in the register that the conversion instruction or the helper of the runtime reads.
-/

namespace CronoVM

open Checked Ir NarrowInt

variable {κ W : Type}

/-- Running the code up to the instruction `prim` leaves `v` in the register `r`. -/
def Passes (img : Image κ) (host : Host κ W) (cg : Cg) (f : Frame κ W) (prim : Word) (r : Byte) (v : Word) (cg' : Cg) : Prop :=
  ∃ ws us m, cg' = { cg with code := cg.code ++ (ws ++ prim :: us), nextReg := m } ∧ ∃ g, RunsTo img host ws f g ∧ g.regs r = v

/-- An argument before it is extended: the bits of an integer constant, or the word of the operand. -/
def scalarWord (cg : Cg) (f : Frame κ W) : Val → Word
  | .const (.int width bits) => BitVec.ofNat 32 (bits % 2 ^ width)
  | v => operandWord cg f v

/-- A value in a register is in one from R8 on. -/
def HighHome (cg : Cg) (v : Val) : Prop := ∀ home, cg.lookup v = some home → home.valSlot = none → 8 ≤ home.reg.toNat

section passes

variable {img : Image κ} {host : Host κ W} {cg cg₁ cg' : Cg} {f f₁ : Frame κ W} {prim v : Word} {r : Byte}

theorem Passes.after (hcode : img.code.length = img.codeCount.toNat) (hem : Emitted img host cg cg₁ f f₁)
    (h : Passes img host cg₁ f₁ prim r v cg') : Passes img host cg f prim r v cg' := by
  obtain ⟨ws, n, rfl, hrun⟩ := hem
  obtain ⟨us, ts, m, rfl, g, hrun', hval⟩ := h
  refine ⟨ws ++ us, ts, m, ?_, g, hrun.append hcode hrun', hval⟩
  simp only [List.append_assoc]

/-- The frames have the same values, but for R0 to R7, R254 and the saved registers. -/
structure SameValues (cg : Cg) (f g : Frame κ W) : Prop where
  regs : ∀ r : Byte, 8 ≤ r.toNat → r ≠ cgRegScratch → g.regs r = f.regs r
  bytes : ∀ p, (f.regs regSp).toNat + (cg.allocaBytes + cg.spillBytes) ≤ p → g.heap.byte p = f.heap.byte p

theorem SameValues.operandWord_eq {g : Frame κ W} (h : SameValues cg f g) (hok : cg.Ok) {x : Val} (hhigh : HighHome cg x) :
    operandWord cg g x = operandWord cg f x := by
  have hsp : g.regs regSp = f.regs regSp := h.regs regSp (by decide) (by decide)
  cases x with
  | block id => rfl
  | const c =>
    have hzero : g.regs cg.zeroReg = f.regs cg.zeroReg := h.regs _ (by rw [hok.zero]; decide) (by rw [hok.zero]; decide)
    rw [operandWord, operandWord, hzero]
  | loc l =>
    simp only [operandWord]
    cases hhome : cg.home? l with
    | none => rfl
    | some home =>
      simp only [Option.map_some, Option.getD_some, homeWord]
      cases hslot : home.valSlot with
      | some k =>
        dsimp only
        rw [slotAddr_of_sp hsp]
        refine leWord_congr fun j _ => h.bytes _ ?_
        unfold slotAddr
        omega
      | none =>
        have hlt := hok.reg_lt l home hhome
        have hreg : Held home.reg cg.nextReg := Or.inl (Nat.lt_of_lt_of_le hlt hok.high_le)
        exact h.regs _ (hhigh home hhome hslot) (hreg.ne_r254 hok.next_le)

theorem SameValues.scalarWord_eq {g : Frame κ W} (h : SameValues cg f g) (hok : cg.Ok) {x : Val} (hhigh : HighHome cg x) :
    scalarWord cg g x = scalarWord cg f x := by
  have hop := h.operandWord_eq hok hhigh
  unfold scalarWord
  split
  case h_1 => rfl
  case h_2 => exact hop

theorem scalarWord_emit (cg : Cg) (f : Frame κ W) (x : Val) (ws : List Word) : scalarWord (cg.emit ws) f x = scalarWord cg f x := by
  have hop := operandWord_emit cg (cg.code ++ ws) cg.nextReg f x
  unfold scalarWord
  split
  case h_1 => rfl
  case h_2 => exact hop

end passes

section code

variable {img : Image κ} (host : Host κ W) {cg : Cg} {f : Frame κ W}

variable (hcode : img.code.length = img.codeCount.toNat)
include hcode

/-- A conversion to `float`. -/
theorem wp_cgIntToF32 (hok : cg.Ok) (hin : InFrame cg img f) (signed : Bool) (fn : Func) (i : Inst) (hpos : 0 < (fn.typeOf (i.operand 0)).regWidth)
    (hw : (fn.typeOf (i.operand 0)).regWidth ≤ 32) {dst : Byte} (hdst : dst ≠ cgRegScratch) : Exec.wp (cgIntToF32 signed fn i dst)
      (fun _ cg' => ∃ r, Passes img host cg f (encR (if signed = true then .i2fS else .i2fU) dst r 0) r
        (if signed = true then extendLow true (fn.typeOf (i.operand 0)).regWidth (operandWord cg f (i.operand 0))
          else operandWord cg f (i.operand 0)) cg') (fun e _ => e.OfOperand) cg := by
  unfold cgIntToF32
  refine wp_operand (wp_cgRegFor host hcode hok hin _) fun src cg₁ f₁ hprep hval hheld => ?_
  have hsrc := hheld.ne_r254 hprep.next_le
  dsimp only
  by_cases hnarrow : signed = true ∧ (fn.typeOf (i.operand 0)).regWidth < 32
  · obtain ⟨rfl, hlt⟩ := hnarrow
    rw [if_pos ⟨rfl, hlt⟩, if_pos rfl]
    simp only [Exec.wp_bind, wp_cgEmit, Cg.emit_emit]
    refine ⟨dst, .after hcode hprep.emitted ⟨signWords _ dst src, [], cg₁.nextReg, rfl, _, runs_signWords host hcode hpos hw hdst hsrc, ?_⟩⟩
    rw [Frame.setReg_same, hval, if_pos trivial]
  · rw [if_neg hnarrow, wp_cgEmit]
    refine ⟨src, .after hcode hprep.emitted ⟨[], [], cg₁.nextReg, rfl, f₁, RunsTo.nil, ?_⟩⟩
    rw [hval]
    by_cases hsigned : signed = true
    · have hwide : (fn.typeOf (i.operand 0)).regWidth = 32 := Nat.le_antisymm hw (Nat.le_of_not_lt fun hlt => hnarrow ⟨hsigned, hlt⟩)
      rw [if_pos hsigned, hwide, extendLow_self]
    · rw [if_neg hsigned]

/-- The argument of a helper that takes a word. -/
theorem wp_cgScalarArg (hok : cg.Ok) (hin : InFrame cg img f) (x : Val) {w : Nat} {r : Byte} (hr : r ≠ cgRegScratch) :
    Exec.wp (cgScalarArg (some x) w r) (fun _ cg' => ∃ f', Emitted img host cg cg' f f' ∧
      f'.regs r = if 1 ≤ w ∧ w < 32 then extendLow true w (scalarWord cg f x) else scalarWord cg f x) (fun e _ => e.OfOperand) cg := by
  -- the extension of a narrow word, in place
  have hextend : ∀ cg₁ f₁, Emitted img host cg cg₁ f f₁ → f₁.regs r = scalarWord cg f x → Exec.wp (Exec.when (1 ≤ w ∧ w < 32) do
      cgEmit (encI16 .movi cgRegScratch (BitVec.ofNat 16 (32 - w)))
      cgEmit (encR .shl r r cgRegScratch)
      cgEmit (encR .sar r r cgRegScratch)) (fun _ cg' => ∃ f', Emitted img host cg cg' f f' ∧
      f'.regs r = if 1 ≤ w ∧ w < 32 then extendLow true w (scalarWord cg f x) else scalarWord cg f x) (fun e _ => e.OfOperand) cg₁ := by
    intro cg₁ f₁ hem hval
    rw [Exec.wp_when]
    refine ⟨fun hnarrow => ?_, fun hplain => ⟨f₁, hem, by rw [if_neg hplain, hval]⟩⟩
    simp only [Exec.wp_bind, wp_cgEmit, Cg.emit_emit]
    refine ⟨_, hem.trans hcode (.of_runs (runs_signWords host hcode hnarrow.1 (Nat.le_of_lt hnarrow.2) hr hr)), ?_⟩
    rw [if_pos hnarrow, Frame.setReg_same, hval]
  unfold cgScalarArg
  dsimp only
  split
  case h_1 width bits =>
    rw [Exec.wp_bind, wp_cgEmitLoadConst32]
    exact hextend _ _ (.of_runs (runs_loadConst32 host hcode r _)) (Frame.setReg_same ..)
  case h_2 hother =>
    have hword : scalarWord cg f x = operandWord cg f x := by
      unfold scalarWord
      split
      case h_1 width bits => exact absurd rfl (hother width bits)
      case h_2 => rfl
    refine wp_operand (wp_cgRegFor host hcode hok hin x) fun s cg₁ f₁ hprep hval _ => ?_
    rw [Exec.wp_bind, cgMoveTo, Exec.wp_when]
    refine ⟨fun _ => ?_, fun hsame => ?_⟩
    · rw [wp_cgEmit]
      refine hextend _ _ (hprep.emitted.trans hcode (.of_runs (runs_mov host hcode r s 0))) ?_
      rw [Frame.setReg_same, hval, hword]
    · obtain rfl : s = r := Classical.not_not.mp hsame
      exact hextend _ _ hprep.emitted (hval.trans hword.symm)

/-- A call of a helper that takes a word and returns a double. -/
theorem wp_cgEmitRuntimeCall_scalar (hok : cg.Ok) (hin : InFrame cg img f) (info : CallInfo) (i : Inst)
    (hspill : cg.spillBytes = info.spillSlotCount cg.ssaRegHigh * 4) (name : String) {x : Val} (hhigh : HighHome cg x) (slot w : Nat) :
    Exec.wp (cgEmitRuntimeCall info i name [] (some x) (some slot) 0 w)
      (fun _ cg' => ∃ k, info.funcByName name = some k ∧ Passes img host cg f (encI24 .call (BitVec.ofNat 32 ((k + 1) * 2))) 1
        (if 1 ≤ w ∧ w < 32 then extendLow true w (scalarWord cg f x) else scalarWord cg f x) cg')
      (fun e _ => e.OfOperand) cg := by
  have hset := savedIn_saved info hok hspill i
  unfold cgEmitRuntimeCall
  split
  case h_1 => exact trivial
  case h_2 k hname =>
    simp only [Exec.wp_bind, Exec.wp_get, wp_cgEmitSpill, cgResultPointer, Exec.wp_pure, cgWideArgs, wp_cgEmit, wp_cgAddrSpPlus,
      wp_cgEmitRestore, Exec.wp_when, Cg.emit_emit]
    obtain ⟨f₁, hrun₁, hsaves⟩ := runs_spill host hcode hok hset hin
    have hsp₁ : f₁.regs regSp = f.regs regSp := hsaves.regs regSp (by decide)
    have hin₁ : InFrame cg img f₁ := ⟨hsaves.size.trans hin.size, by rw [hsp₁]; exact hin.fits⟩
    have haddr := runs_addrSpPlus (f := f₁) host hcode (cg.valSlotOff slot)
    have hmov := runs_mov (f := f₁.setReg cgRegScratch (f₁.regs regSp + cg.valSlotOff slot)) host hcode 0 cgRegScratch 0
    rw [Frame.setReg_same] at hmov
    generalize hf₂ : (f₁.setReg cgRegScratch (f₁.regs regSp + cg.valSlotOff slot)).setReg 0 (f₁.regs regSp + cg.valSlotOff slot) = f₂ at hmov
    have hregs₂ : ∀ r : Byte, r ≠ 0 → r ≠ cgRegScratch → f₂.regs r = f₁.regs r := by
      intro r hr hr'
      rw [← hf₂, Frame.setReg_of_ne _ _ hr, Frame.setReg_of_ne _ _ hr']
    have hheap₂ : f₂.heap = f₁.heap := by rw [← hf₂]; rfl
    have hsame : SameValues cg f f₂ := by
      refine ⟨fun r hr hr' => ?_, fun p hp => ?_⟩
      · rw [hregs₂ r (by rintro rfl; exact absurd hr (by decide)) hr', hsaves.regs r hr']
      · rw [hheap₂, hsaves.bytes p hp]
    have hin₂ : InFrame cg img f₂ := ⟨by rw [hheap₂]; exact hin₁.size, by rw [hregs₂ regSp (by decide) (by decide)]; exact hin₁.fits⟩
    have hword := (scalarWord_emit cg f₂ x (spillWords (info.saved cg i) ++ (addrSpPlusWords (cg.valSlotOff slot) ++
      [encR .mov 0 cgRegScratch 0]))).trans (hsame.scalarWord_eq hok hhigh)
    have hbefore := hrun₁.append hcode (haddr.append hcode hmov)
    have hok₂ : (cg.emit (spillWords (info.saved cg i) ++ (addrSpPlusWords (cg.valSlotOff slot) ++ [encR .mov 0 cgRegScratch 0]))).Ok := { hok with }
    refine Exec.wp_mono ?_ (fun _ _ he => he) (wp_cgScalarArg host hcode hok₂ ⟨hin₂.size, hin₂.fits⟩ x (by decide))
    rintro _ cg₃ ⟨f₃, hem, hval⟩
    rw [hword] at hval
    obtain ⟨ws, n, rfl, hrun₃⟩ := hem
    refine ⟨fun h => absurd rfl h.2, fun _ => ⟨k, hname, _, restoreWords (info.saved cg i), n, ?_, f₃, hbefore.append hcode hrun₃, hval⟩⟩
    simp only [Cg.emit, List.append_assoc, List.cons_append, List.nil_append]

end code

end CronoVM
