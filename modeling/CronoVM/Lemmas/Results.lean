import CronoVM.Lemmas.PhiCopy
import CronoVM.Translator.Scalar

/-!
# Code that computes a result

The code of an instruction puts its operands into registers, which changes scratch registers only, then writes the register of the
result, and stores it where the result has a slot.
-/

namespace CronoVM

open Checked Ir

variable {κ W : Type}

/-! ## Preparation -/

/-- Code that changes scratch registers only. -/
structure Prepares (img : Image κ) (host : Host κ W) (cg : Cg) (f : Frame κ W) (cg' : Cg) (f' : Frame κ W) : Prop where
  emitted : Emitted img host cg cg' f f'
  agrees : f.AgreesOff (Scratch cg.nextReg) f'
  next_ge : cg.nextReg ≤ cg'.nextReg
  next_le : cg'.nextReg ≤ cgMaxEmitReg + 1

section prepares

variable {img : Image κ} {host : Host κ W} {cg cg' cg'' : Cg} {f f' f'' : Frame κ W} {r : Byte} {v : Word}

theorem GivesReg.prepares (h : GivesReg img host cg f v r cg') : ∃ f', Prepares img host cg f cg' f' ∧ f'.regs r = v ∧ Held r cg'.nextReg := by
  obtain ⟨f', hem, hag, hge, hle, hval, hheld⟩ := h
  exact ⟨f', ⟨hem, hag, hge, hle⟩, hval, hheld⟩

namespace Prepares

theorem refl (hnext : cg.nextReg ≤ cgMaxEmitReg + 1) : Prepares img host cg f cg f := ⟨.refl, .refl _ f, Nat.le_refl _, hnext⟩

theorem trans (hcode : img.code.length = img.codeCount.toNat) (h : Prepares img host cg f cg' f') (h' : Prepares img host cg' f' cg'' f'') :
    Prepares img host cg f cg'' f'' :=
  ⟨h.emitted.trans hcode h'.emitted, h.agrees.trans (h'.agrees.mono fun _ hr => hr.mono h.next_ge), Nat.le_trans h.next_ge h'.next_ge,
    h'.next_le⟩

theorem ok (h : Prepares img host cg f cg' f') (hok : cg.Ok) : cg'.Ok :=
  h.emitted.ok hok (Nat.le_trans hok.high_le h.next_ge) h.next_le

theorem inFrame (h : Prepares img host cg f cg' f') (hin : InFrame cg img f) : InFrame cg' img f' :=
  (hin.of_agrees h.agrees (not_scratch_of_gt (Or.inr rfl))).of_emitted h.emitted

/-- A register in use is as it was. -/
theorem regs (h : Prepares img host cg f cg' f') (hr : Held r cg.nextReg) : f'.regs r = f.regs r :=
  h.agrees.regs r (hr.not_scratch (Nat.le_trans h.next_ge h.next_le))

theorem held (h : Prepares img host cg f cg' f') (hr : Held r cg.nextReg) : Held r cg'.nextReg :=
  hr.imp_left fun hlt => Nat.lt_of_lt_of_le hlt h.next_ge

/-- The values are what they were. -/
theorem operandWord_eq (h : Prepares img host cg f cg' f') (hok : cg.Ok) (v : Val) : operandWord cg' f' v = operandWord cg f v := by
  have hnext := Nat.le_trans h.next_ge h.next_le
  rw [h.emitted.operandWord_eq]
  cases v with
  | block id => rfl
  | const c =>
    have hzero : f'.regs cg.zeroReg = f.regs cg.zeroReg := h.regs (Or.inr hok.zero)
    simp only [operandWord, hzero]
  | loc l =>
    simp only [operandWord]
    cases hhome : cg.home? l with
    | none => rfl
    | some home =>
      simp only [Option.map_some, Option.getD_some, ← locWord_home]
      exact locWord_agrees hnext h.agrees (hok.home_ok hhome).1

/-- A register that is left with a word. -/
theorem givesReg (h : Prepares img host cg f cg' f') (hval : f'.regs r = v) (hheld : Held r cg'.nextReg) :
    GivesReg img host cg f v r cg' :=
  ⟨f', h.emitted, h.agrees, h.next_ge, h.next_le, hval, hheld⟩

end Prepares

theorem GivesReg.after (hcode : img.code.length = img.codeCount.toNat) (h : Prepares img host cg f cg' f')
    (hgives : GivesReg img host cg' f' v r cg'') : GivesReg img host cg f v r cg'' := by
  obtain ⟨f'', hprep, hval, hheld⟩ := hgives.prepares
  exact (h.trans hcode hprep).givesReg hval hheld

/-- What follows an operand in a register. -/
theorem wp_operand {α : Type} {m : Emit Byte} {k : Byte → Emit α} {Q : α → Cg → Prop} {E : CgError → Cg → Prop}
    (h : Exec.wp m (GivesReg img host cg f v) E cg)
    (hk : ∀ r cg' f', Prepares img host cg f cg' f' → f'.regs r = v → Held r cg'.nextReg → Exec.wp (k r) Q E cg') :
    Exec.wp (m >>= k) Q E cg := by
  rw [Exec.wp_bind]
  refine Exec.wp_mono ?_ (fun _ _ he => he) h
  intro r cg' hgives
  obtain ⟨f', hprep, hval, hheld⟩ := hgives.prepares
  exact hk r cg' f' hprep hval hheld

end prepares

/-! ## Registers -/

/-- Code that leaves `v` in `dst`; beyond that scratch registers change. -/
def Defines (img : Image κ) (host : Host κ W) (cg : Cg) (f : Frame κ W) (dst : Byte) (v : Word) (cg' : Cg) : Prop :=
  ∃ f', Emitted img host cg cg' f f' ∧ (f.setReg dst v).AgreesOff (Scratch cg.nextReg) f' ∧ cg.nextReg ≤ cg'.nextReg ∧
    cg'.nextReg ≤ cgMaxEmitReg + 1

section defines

variable {img : Image κ} {host : Host κ W} {cg cg₁ cg' : Cg} {f f₁ : Frame κ W} {dst : Byte} {v : Word} {ws : List Word}

theorem Defines.after (hcode : img.code.length = img.codeCount.toNat) (hprep : Prepares img host cg f cg₁ f₁)
    (h : Defines img host cg₁ f₁ dst v cg') : Defines img host cg f dst v cg' := by
  obtain ⟨f', hem', hag', hle', hnext'⟩ := h
  have hset : (f.setLoc cg (.reg dst) v).AgreesOff (Scratch cg.nextReg) (f₁.setLoc cg (.reg dst) v) :=
    hprep.agrees.setLoc (not_scratch_of_gt (Or.inr rfl)) _ v
  exact ⟨f', hprep.emitted.trans hcode hem', hset.trans (hag'.mono fun r hr => hr.mono hprep.next_ge),
    Nat.le_trans hprep.next_ge hle', hnext'⟩

/-- Code that ends with the instruction that writes the register. -/
theorem Defines.of_runs (hnext : cg.nextReg ≤ cgMaxEmitReg + 1) (h : RunsTo img host ws f (f.setReg dst v)) :
    Defines img host cg f dst v (cg.emit ws) :=
  ⟨_, .of_runs h, .refl _ _, Nat.le_refl _, hnext⟩

/-- Code that uses R254 before it writes the register. -/
theorem Defines.of_runs_scratch {k : Word} (hnext : cg.nextReg ≤ cgMaxEmitReg + 1)
    (h : RunsTo img host ws f ((f.setReg cgRegScratch k).setReg dst v)) : Defines img host cg f dst v (cg.emit ws) := by
  have hag : f.AgreesOff (Scratch cg.nextReg) (f.setReg cgRegScratch k) := .setReg k (Or.inl rfl)
  have hset : (f.setLoc cg (.reg dst) v).AgreesOff (Scratch cg.nextReg) ((f.setReg cgRegScratch k).setLoc cg (.reg dst) v) :=
    hag.setLoc (not_scratch_of_gt (Or.inr rfl)) _ v
  exact ⟨_, .of_runs h, hset, Nat.le_refl _, hnext⟩

/-- A register that was still free is a scratch register. -/
theorem Defines.givesReg (hnext : ¬cg.nextReg > cgMaxEmitReg)
    (h : Defines img host { cg with nextReg := cg.nextReg + 1 } f (BitVec.ofNat 8 cg.nextReg) v cg') :
    GivesReg img host cg f v (BitVec.ofNat 8 cg.nextReg) cg' := by
  obtain ⟨f', hem, hag, hle, hnext'⟩ := h
  have hle' : cg.nextReg + 1 ≤ cg'.nextReg := hle
  have hnat := toNat_nextReg hnext
  have hem' : Emitted img host cg cg' f f' := by
    obtain ⟨ws, n, rfl, hrun⟩ := hem
    exact ⟨ws, n, rfl, hrun⟩
  have hfree : ¬Scratch (cg.nextReg + 1) (BitVec.ofNat 8 cg.nextReg) := not_scratch_of_lt (by omega) (by omega)
  refine ⟨f', hem', ?_, by omega, hnext', (hag.regs _ hfree).trans (Frame.setReg_same ..), Or.inl (by omega)⟩
  exact (Frame.AgreesOff.setReg v (scratch_nextReg (Nat.le_refl _) hnext)).trans (hag.mono fun r hr => hr.mono (Nat.le_succ _))

theorem nextReg_ne_scratch {n : Nat} (h : ¬n > cgMaxEmitReg) : BitVec.ofNat 8 n ≠ cgRegScratch := by
  intro he
  have hnat := toNat_nextReg h
  rw [he] at hnat
  have h252 : cgMaxEmitReg = 252 := rfl
  have h254 : cgRegScratch.toNat = 254 := rfl
  omega

theorem Held.ne_r254 {r : Byte} {lo : Nat} (h : Held r lo) (hlo : lo ≤ cgMaxEmitReg + 1) : r ≠ cgRegScratch := by
  rintro rfl
  exact h.not_scratch hlo (Or.inl rfl)

end defines

/-! ## Homes -/

/-- Code that leaves `v` in a location of the function; beyond that scratch registers change. -/
def Computes (img : Image κ) (host : Host κ W) (cg : Cg) (f : Frame κ W) (dst : Loc) (v : Word) (cg' : Cg) : Prop :=
  cg'.Ok ∧ ∃ f', Emitted img host cg cg' f f' ∧ (f.setLoc cg dst v).AgreesOff (Scratch cg.ssaRegHigh) f'

section computes

variable {img : Image κ} (host : Host κ W) {cg : Cg} {f : Frame κ W} {fn : Func} {i : Inst}

/-- The handler of an instruction computes `v` into any register in use. -/
def Handles (img : Image κ) (host : Host κ W) (cg : Cg) (f : Frame κ W) (fn : Func) (i : Inst) (v : Word) : Prop :=
  ∀ n dst, cg.ssaRegHigh ≤ n → n ≤ cgMaxEmitReg + 1 → dst.toNat < n → Exec.wp (cgScalarDef fn i dst)
    (fun _ => Defines img host { cg with nextReg := n } f dst v) (fun e _ => e.OfOperand) { cg with nextReg := n }

/-- The handlers see the values as they are, whatever registers are in use. -/
theorem Handles.of_wp (hok : cg.Ok) (hin : InFrame cg img f) {v : Word}
    (h : ∀ cg₁ : Cg, cg₁.Ok → InFrame cg₁ img f → (∀ x, operandWord cg₁ f x = operandWord cg f x) → ∀ dst : Byte, dst ≠ cgRegScratch →
      Exec.wp (cgScalarDef fn i dst) (fun _ => Defines img host cg₁ f dst v) (fun e _ => e.OfOperand) cg₁) :
    Handles img host cg f fn i v := by
  intro n dst hge hle hdst
  have hok₁ : Cg.Ok { cg with nextReg := n } :=
    { hok with
      high_le := hge
      next_le := hle }
  have hne : dst ≠ cgRegScratch := by
    rintro rfl
    exact not_scratch_of_lt hle hdst (Or.inl rfl)
  exact h _ hok₁ ⟨hin.size, hin.fits⟩ (operandWord_emit cg cg.code n f) dst hne

/-- The turn of the loop computes the result into the home. -/
theorem wp_cgScalarInst (hcode : img.code.length = img.codeCount.toNat) (hok : cg.Ok) (hin : InFrame cg img f) {home : Home}
    (hhome : cg.home? i.result = some home) {v : Word}
    (hdef : Handles img host cg f fn i v) :
    Exec.wp (cgScalarInst fn i) (fun _ => Computes img host cg f (cgPhiDstLoc home) v) (fun e _ => e.OfOperand) cg := by
  have hhigh := hok.high_le
  have hnext := hok.next_le
  simp only [cgScalarInst, Exec.wp_bind, Exec.wp_modify, Exec.wp_get]
  have hhome' : Cg.home? { cg with nextReg := cg.ssaRegHigh } i.result = some home := hhome
  simp only [hhome', cgPhiDstLoc]
  cases hslot : home.valSlot with
  | none =>
    have hlt := hok.reg_lt _ home hhome
    refine Exec.wp_mono ?_ (fun _ _ h => h) (hdef cg.ssaRegHigh home.reg (Nat.le_refl _) (by omega) hlt)
    rintro _ cg' ⟨f', ⟨ws, n, rfl, hrun⟩, hag, hge, hle⟩
    have hem : Emitted img host cg { cg with code := cg.code ++ ws, nextReg := n } f f' := ⟨ws, n, rfl, hrun⟩
    exact ⟨hem.ok hok hge hle, f', hem, hag⟩
  | some slot =>
    have hk := hok.slot_lt _ home slot hhome hslot
    have hpool : Cg.freeList { cg with nextReg := cg.ssaRegHigh } = [] := hok.pool
    simp only [Exec.wp_bind, wp_cgAllocReg hpool]
    refine ⟨fun _ => trivial, fun hroom => ?_⟩
    have hnat := toNat_nextReg hroom
    have hdst : (BitVec.ofNat 8 cg.ssaRegHigh).toNat < cg.ssaRegHigh + 1 := by omega
    refine Exec.wp_mono ?_ (fun _ _ h => h) (hdef (cg.ssaRegHigh + 1) _ (Nat.le_succ _) (by omega) hdst)
    rintro _ cg₂ ⟨f₂, ⟨ws, n, rfl, hrun⟩, hag, hge, hle⟩
    have hge : cg.ssaRegHigh + 1 ≤ n := hge
    have hle : n ≤ cgMaxEmitReg + 1 := hle
    have hem : Emitted img host cg { cg with code := cg.code ++ ws, nextReg := n } f f₂ := ⟨ws, n, rfl, hrun⟩
    have hag₂ : f.AgreesOff (Scratch cg.ssaRegHigh) f₂ :=
      (Frame.AgreesOff.setReg v (scratch_nextReg (Nat.le_refl _) hroom)).trans (hag.mono fun r hr => hr.mono (Nat.le_succ _))
    have hok₂ := hem.ok hok (Nat.le_trans (Nat.le_succ _) hge) hle
    have hsp : ¬Scratch cg.ssaRegHigh regSp := not_scratch_of_gt (Or.inr rfl)
    have hin₂ := (hin.of_agrees hag₂ hsp).of_emitted hem
    have hval : f₂.regs (BitVec.ofNat 8 cg.ssaRegHigh) = v := (hag.regs _ (not_scratch_of_lt (by omega) hdst)).trans (Frame.setReg_same ..)
    refine Exec.wp_mono ?_ (fun _ _ h => h.elim) (wp_stwSlot host hcode hok₂ hin₂ hk (nextReg_ne_scratch hroom))
    rintro _ cg₃ ⟨hnext₃, f₃, hem₃, hag₃⟩
    rw [hval] at hag₃
    have hset : (f.setLoc cg (.slot slot) v).AgreesOff (Scratch cg.ssaRegHigh) (f₂.setLoc cg (.slot slot) v) := hag₂.setLoc hsp _ v
    have hnext₃ : cg₃.nextReg = n := hnext₃
    exact ⟨hem₃.ok hok₂ (show cg.ssaRegHigh ≤ _ by omega) (by omega), f₃, hem.trans hcode hem₃, hset.trans (hag₃.mono fun r hr => hr.scratch _)⟩

end computes

end CronoVM
