import CronoVM.Lemmas.Results

/-!
# Registers that are not a value's own

`cg_reg_for` puts a value without a register of its own into one above all registers in use, so the register of the result is not touched.
-/

namespace CronoVM

open Checked Ir

variable {κ W : Type}

/-- A register that no value of the function has as its home. -/
def FreshReg (cg : Cg) (r : Byte) (cg' : Cg) : Prop :=
  (cg.nextReg ≤ r.toNat ∨ r = cg.zeroReg) ∧ cg.nextReg ≤ cg'.nextReg ∧ cg'.freeList = [] ∧ cg'.zeroReg = cg.zeroReg

section fresh

variable {cg : Cg}

theorem wp_cgAllocReg_fresh (hpool : cg.freeList = []) :
    Exec.wp cgAllocReg (fun r cg' => FreshReg cg r cg' ∧ cg'.nextReg = cg.nextReg + 1) (fun _ _ => True) cg := by
  rw [wp_cgAllocReg hpool]
  refine ⟨fun _ => trivial, fun h => ⟨⟨Or.inl ?_, Nat.le_succ _, hpool, rfl⟩, rfl⟩⟩
  exact Nat.le_of_eq (toNat_nextReg h).symm

theorem wp_cgConstReg_fresh (hpool : cg.freeList = []) (imm : Word) :
    Exec.wp (cgConstReg imm) (FreshReg cg) (fun _ _ => True) cg := by
  rw [cgConstReg, Exec.wp_bind]
  refine Exec.wp_mono ?_ (fun _ _ he => he) (wp_cgAllocReg_fresh hpool)
  rintro r cg₁ ⟨hfresh, _⟩
  rw [Exec.wp_bind, wp_cgEmitLoadConst32, Exec.wp_pure]
  exact hfresh

theorem wp_cgRegForConst_fresh (hpool : cg.freeList = []) (c : Const) :
    Exec.wp (cgRegForConst c) (FreshReg cg) (fun _ _ => True) cg := by
  induction c with
  | aliasOf aliasee ih => exact ih
  | cast c ty ih => exact ih
  | int width bits =>
    simp only [cgRegForConst, Exec.wp_bind, Exec.wp_stopIf]
    exact ⟨fun _ => trivial, fun _ => wp_cgConstReg_fresh hpool _⟩
  | null =>
    rw [cgRegForConst, Exec.wp_bind]
    refine Exec.wp_mono ?_ (fun _ _ he => he) (wp_cgAllocReg_fresh hpool)
    rintro r cg₁ ⟨hfresh, _⟩
    exact hfresh
  | float bits => exact wp_cgConstReg_fresh hpool _
  | double lo hi => exact trivial
  | undef ty => exact ⟨Or.inr rfl, Nat.le_refl _, hpool, rfl⟩
  | global id =>
    rw [cgRegForConst, Exec.wp_bind, Exec.wp_get]
    cases cg.globals.find? fun e => e.1 = id with
    | none => exact trivial
    | some e => exact wp_cgConstReg_fresh hpool _
  | func id =>
    rw [cgRegForConst, Exec.wp_bind, Exec.wp_get]
    cases cg.funcs.idxOf? id with
    | none => exact trivial
    | some fidx => exact wp_cgConstReg_fresh hpool _
  | gep base off ih =>
    cases off with
    | none => exact trivial
    | some off =>
      rw [cgRegForConst, Exec.wp_bind]
      refine Exec.wp_mono ?_ (fun _ _ he => he) ih
      rintro b cg₁ ⟨hb, hnext₁, hpool₁, hzero₁⟩
      by_cases hoff : off = 0
      · rw [if_pos hoff]
        exact ⟨hb, hnext₁, hpool₁, hzero₁⟩
      · rw [if_neg hoff, Exec.wp_bind, Exec.wp_stopIf]
        refine ⟨fun _ => trivial, fun _ => ?_⟩
        rw [Exec.wp_bind]
        refine Exec.wp_mono ?_ (fun _ _ he => he) (wp_cgConstReg_fresh hpool₁ _)
        rintro offR cg₂ ⟨_, hnext₂, hpool₂, hzero₂⟩
        rw [Exec.wp_bind]
        refine Exec.wp_mono ?_ (fun _ _ he => he) (wp_cgAllocReg_fresh hpool₂)
        rintro sumR cg₃ ⟨⟨hsum, hnext₃, hpool₃, hzero₃⟩, _⟩
        refine ⟨?_, by show cg.nextReg ≤ cg₃.nextReg; omega, hpool₃, hzero₃.trans (hzero₂.trans hzero₁)⟩
        rcases hsum with hge | hz
        · exact Or.inl (by omega)
        · exact Or.inr (hz.trans (hzero₂.trans hzero₁))
  | expr ty => exact trivial
  | other ty => exact trivial

/-- A value without a register of its own is put into a fresh one. -/
theorem wp_cgRegFor_fresh (hpool : cg.freeList = []) {v : Val} (hv : ∀ home, cg.lookup v = some home → home.valSlot ≠ none) :
    Exec.wp (cgRegFor v) (FreshReg cg) (fun _ _ => True) cg := by
  unfold cgRegFor
  rw [Exec.wp_bind, Exec.wp_get]
  cases v with
  | block id => exact trivial
  | const c => exact wp_cgRegForConst_fresh hpool c
  | loc l =>
    cases hhome : cg.home? l with
    | none =>
      simp only [Cg.lookup, hhome]
      exact trivial
    | some home =>
      simp only [Cg.lookup, hhome]
      cases hslot : home.valSlot with
      | none => exact absurd hslot (hv home hhome)
      | some k =>
        simp only [cgReloadSpilled, Exec.wp_bind]
        refine Exec.wp_mono ?_ (fun _ _ he => he) (wp_cgAllocReg_fresh hpool)
        rintro r cg₁ ⟨hfresh, _⟩
        rw [Exec.wp_get, wp_cgLdwSpOff, Exec.wp_pure]
        exact hfresh

end fresh

/-- The value is not in the register of the result. -/
def ApartFrom (cg : Cg) (dst : Byte) (v : Val) : Prop := ∀ home, cg.lookup v = some home → home.valSlot = none → home.reg ≠ dst

theorem Prepares.apartFrom {img : Image κ} {host : Host κ W} {cg cg' : Cg} {f f' : Frame κ W} {dst : Byte} {v : Val}
    (h : Prepares img host cg f cg' f') (hv : ApartFrom cg dst v) : ApartFrom cg' dst v := by
  obtain ⟨⟨ws, n, rfl, hrun⟩, _⟩ := h
  intro home hhome
  refine hv home ?_
  rw [← hhome]
  cases v <;> rfl

/-- What follows an operand in a register that is not the result's. -/
theorem wp_operandApart {img : Image κ} (host : Host κ W) (hcode : img.code.length = img.codeCount.toNat) {cg : Cg} {f : Frame κ W}
    (hok : cg.Ok) (hin : InFrame cg img f) {v : Val} {dst : Byte} (hdst : dst.toNat < cg.nextReg) (hapart : ApartFrom cg dst v) {α : Type}
    {k : Byte → Emit α} {Q : α → Cg → Prop} (hk : ∀ r cg' f', Prepares img host cg f cg' f' → f'.regs r = operandWord cg f v →
      Held r cg'.nextReg → r ≠ dst → Exec.wp (k r) Q (fun e _ => e.OfOperand) cg') :
    Exec.wp (cgRegFor v >>= k) Q (fun e _ => e.OfOperand) cg := by
  have hne : Exec.wp (cgRegFor v) (fun r _ => r ≠ dst) (fun _ _ => True) cg := by
    by_cases hown : ∀ home, cg.lookup v = some home → home.valSlot ≠ none
    · refine Exec.wp_mono ?_ (fun _ _ he => he) (wp_cgRegFor_fresh hok.pool hown)
      rintro r cg' ⟨hr, _⟩ rfl
      rcases hr with hge | hzero
      · omega
      · have hnext := hok.next_le
        rw [hzero, hok.zero] at hdst
        have h253 : cgRegZero.toNat = 253 := rfl
        have h252 : cgMaxEmitReg = 252 := rfl
        omega
    · simp only [not_forall, not_not] at hown
      obtain ⟨home, hhome, hslot⟩ := hown
      simp only [cgRegFor, Exec.wp_bind, Exec.wp_get, hhome, hslot, Exec.wp_pure]
      exact hapart home hhome hslot
  rw [Exec.wp_bind]
  refine Exec.wp_mono ?_ (fun _ _ he => he.1) (Exec.wp_and (wp_cgRegFor host hcode hok hin v) hne)
  rintro r cg' ⟨hgives, hrne⟩
  obtain ⟨f', hprep, hval, hheld⟩ := hgives.prepares
  exact hk r cg' f' hprep hval hheld hrne

end CronoVM
