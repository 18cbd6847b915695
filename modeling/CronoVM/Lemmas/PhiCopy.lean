import CronoVM.Lemmas.Operands
import CronoVM.Translator.PhiMoves

/-!
# Copies between locations

What a location holds, and what the pieces of code do that the sequence of phi moves is made of: each writes one location, and beyond
that only scratch registers.
-/

namespace CronoVM

open Checked Ir

variable {κ W : Type}

/-! ## Locations -/

/-- What a location holds. -/
def locWord (cg : Cg) (f : Frame κ W) : Loc → Word
  | .reg r => f.regs r
  | .slot k => f.heap.word (slotAddr cg f k)

/-- A location of the function: a register below `hi` or the zero register, or a slot of the frame. -/
def Loc.Ok (cg : Cg) (hi : Nat) : Loc → Prop
  | .reg r => r.toNat < hi ∨ r = cgRegZero
  | .slot k => k < cg.valSpillCount

/-- The frame with `v` in a location. -/
def Frame.setLoc (cg : Cg) (f : Frame κ W) (l : Loc) (v : Word) : Frame κ W :=
  match l with
  | .reg r => f.setReg r v
  | .slot k => f.setWord (slotAddr cg f k) v

section locations

variable {cg : Cg} {hi : Nat} {f g : Frame κ W} {l dst : Loc} {v : Word}

theorem Loc.Ok.not_scratch {r : Byte} (hhi : hi ≤ cgMaxEmitReg + 1) (h : Loc.Ok cg hi (.reg r)) : ¬Scratch hi r :=
  h.elim (not_scratch_of_lt hhi) fun hz => not_scratch_of_gt (Or.inl hz)

theorem Loc.Ok.mono {hi' : Nat} {l : Loc} (hle : hi ≤ hi') (h : Loc.Ok cg hi l) : Loc.Ok cg hi' l := by
  cases l with
  | reg r => exact h.imp_left fun hlt => Nat.lt_of_lt_of_le hlt hle
  | slot k => exact h

theorem Loc.Ok.ne_sp {r : Byte} (hhi : hi ≤ cgMaxEmitReg + 1) (h : Loc.Ok cg hi (.reg r)) : r ≠ regSp := by
  rintro rfl
  have h252 : cgMaxEmitReg = 252 := rfl
  rcases h with hlt | hz
  · have hsp : regSp.toNat = 255 := rfl
    omega
  · exact absurd hz (by decide)

theorem setLoc_sp (hhi : hi ≤ cgMaxEmitReg + 1) (hdst : Loc.Ok cg hi dst) : (f.setLoc cg dst v).regs regSp = f.regs regSp := by
  cases dst with
  | reg r => exact Frame.setReg_of_ne f v (hdst.ne_sp hhi).symm
  | slot k => rfl

theorem slotAddr_of_sp (h : g.regs regSp = f.regs regSp) (k : Nat) : slotAddr cg g k = slotAddr cg f k := by
  rw [slotAddr, slotAddr, h]

/-- A location that is written holds what was written. -/
theorem locWord_setLoc_same : locWord cg (f.setLoc cg l v) l = v := by
  cases l with
  | reg r => exact Frame.setReg_same f r v
  | slot k => exact f.heap.word_setWord _ v

/-- The other locations hold what they held: slots do not overlap. -/
theorem locWord_setLoc_of_ne (hhi : hi ≤ cgMaxEmitReg + 1) (hdst : Loc.Ok cg hi dst) (hne : l ≠ dst) :
    locWord cg (f.setLoc cg dst v) l = locWord cg f l := by
  have hsp := setLoc_sp (f := f) (v := v) hhi hdst
  cases l with
  | reg r =>
    cases dst with
    | reg d => exact Frame.setReg_of_ne f v fun he => hne (congrArg Loc.reg he)
    | slot k => rfl
  | slot j =>
    simp only [locWord, slotAddr_of_sp hsp]
    cases dst with
    | reg d => rfl
    | slot k =>
      have hjk : j ≠ k := fun he => hne (congrArg Loc.slot he)
      refine f.heap.word_setWord_of_disjoint v ?_
      simp only [slotAddr]
      omega

theorem Cg.Ok.home_low (hok : cg.Ok) {l : Local} {home : Home} (h : cg.home? l = some home) :
    Loc.Ok cg cg.ssaRegHigh (cgPhiDstLoc home) := by
  unfold cgPhiDstLoc
  cases hslot : home.valSlot with
  | some k => exact hok.slot_lt l home k h hslot
  | none => exact Or.inl (hok.reg_lt l home h)

/-- A home is a location of the function, and not the zero register. -/
theorem Cg.Ok.home_ok (hok : cg.Ok) {l : Local} {home : Home} (h : cg.home? l = some home) :
    Loc.Ok cg cg.nextReg (cgPhiDstLoc home) ∧ cgPhiDstLoc home ≠ .reg cgRegZero := by
  unfold cgPhiDstLoc
  cases hslot : home.valSlot with
  | some k => exact ⟨hok.slot_lt l home k h hslot, by simp⟩
  | none =>
    have hlt := Nat.lt_of_lt_of_le (hok.reg_lt l home h) hok.high_le
    refine ⟨Or.inl hlt, fun he => ?_⟩
    have hreg := congrArg BitVec.toNat (Loc.reg.inj he)
    have h253 : cgRegZero.toNat = 253 := rfl
    have h252 : cgMaxEmitReg = 252 := rfl
    have := hok.next_le
    omega

theorem Cg.Ok.zero_ok (hok : cg.Ok) : Loc.Ok cg cg.nextReg (.reg cg.zeroReg) := Or.inr hok.zero

/-- A home holds what its location holds. -/
theorem locWord_home {home : Home} : locWord cg f (cgPhiDstLoc home) = homeWord cg f home := by
  unfold cgPhiDstLoc homeWord
  cases home.valSlot <;> rfl

theorem locWord_agrees (hhi : hi ≤ cgMaxEmitReg + 1) (h : f.AgreesOff (Scratch hi) g) (hl : Loc.Ok cg hi l) :
    locWord cg g l = locWord cg f l := by
  have hsp := h.regs regSp (not_scratch_of_gt (Or.inr rfl))
  cases l with
  | reg r => exact h.regs r (hl.not_scratch hhi)
  | slot k => simp only [locWord, slotAddr_of_sp hsp, h.heap]

/-- Frames that agree still agree with the same location written. -/
theorem Frame.AgreesOff.setLoc {S : Byte → Prop} (h : f.AgreesOff S g) (hsp : ¬S regSp) (l : Loc) (v : Word) :
    (f.setLoc cg l v).AgreesOff S (g.setLoc cg l v) := by
  have hsp := h.regs regSp hsp
  cases l with
  | reg r =>
    refine ⟨h.heap, h.imports, h.world, fun r' hr' => ?_⟩
    by_cases hrr : r' = r
    · rw [hrr]
      exact (Frame.setReg_same g r v).trans (Frame.setReg_same f r v).symm
    · exact (Frame.setReg_of_ne g v hrr).trans ((h.regs r' hr').trans (Frame.setReg_of_ne f v hrr).symm)
  | slot k =>
    refine ⟨?_, h.imports, h.world, h.regs⟩
    simp only [Frame.setLoc, slotAddr_of_sp hsp, Frame.setWord_heap, h.heap]

end locations

/-! ## The copies -/

/-- R254 alone. -/
def OnlyR254 (r : Byte) : Prop := r = cgRegScratch

theorem OnlyR254.scratch {r : Byte} (hi : Nat) (h : OnlyR254 r) : Scratch hi r := Or.inl h

theorem not_onlyR254_sp : ¬OnlyR254 regSp := by
  simp [OnlyR254, regSp, cgRegScratch]

/-- Code that writes `v` to `dst`, and beyond that to registers in `S` only. -/
def Writes (img : Image κ) (host : Host κ W) (S : Byte → Prop) (cg : Cg) (f : Frame κ W) (dst : Loc) (v : Word) (cg' : Cg) : Prop :=
  cg'.nextReg = cg.nextReg ∧ ∃ f', Emitted img host cg cg' f f' ∧ (f.setLoc cg dst v).AgreesOff S f'

section copies

variable {img : Image κ} {host : Host κ W} {cg : Cg} {hi : Nat} {f : Frame κ W} {dst src : Loc}

theorem Writes.mono {S T : Byte → Prop} {v : Word} {cg' : Cg} (hST : ∀ r, S r → T r) (h : Writes img host S cg f dst v cg') :
    Writes img host T cg f dst v cg' := by
  obtain ⟨hnext, f', hem, hag⟩ := h
  exact ⟨hnext, f', hem, hag.mono hST⟩

variable (hcode : img.code.length = img.codeCount.toNat) (host)
include hcode

/-- `cg_phi_read_to`. -/
theorem wp_cgPhiReadTo (hok : cg.Ok) (hin : InFrame cg img f) (hsrc : Loc.Ok cg hi src) (d : Byte) :
    Exec.wp (cgPhiReadTo src d) (fun _ => Writes img host OnlyR254 cg f (.reg d) (locWord cg f src)) (fun _ _ => False) cg := by
  rw [cgPhiReadTo, Exec.wp_bind, Exec.wp_get]
  cases src with
  | slot k =>
    rw [wp_cgLdwSpOff]
    have hrun := runs_ldwSpOff host hcode d (inMemory_valSlotOff hok hin hsrc)
    rw [toNat_valSlotOff hok hin hsrc] at hrun
    have hag : f.AgreesOff OnlyR254 (f.setReg cgRegScratch (f.regs regSp + cg.valSlotOff k)) := .setReg _ rfl
    exact ⟨rfl, _, .of_runs hrun, hag.setLoc not_onlyR254_sp (.reg d) _⟩
  | reg r =>
    rw [Exec.wp_when]
    refine ⟨fun _ => ?_, fun heq => ?_⟩
    · rw [wp_cgEmit]
      exact ⟨rfl, _, .of_runs (runs_mov host hcode d r 0), .refl _ _⟩
    · obtain rfl : r = d := not_not.mp heq
      have hself : f.setLoc cg (.reg r) (locWord cg f (.reg r)) = f := by
        simp only [Frame.setLoc, Frame.setReg, locWord, Function.update_eq_self]
      exact ⟨rfl, f, .refl, by rw [hself]; exact .refl _ f⟩

/-- A register is stored in a slot. -/
theorem wp_stwSlot (hok : cg.Ok) (hin : InFrame cg img f) {k : Nat} (hk : k < cg.valSpillCount) {s : Byte} (hs : s ≠ cgRegScratch) :
    Exec.wp (cgStwSpOff (cg.valSlotOff k) s) (fun _ => Writes img host OnlyR254 cg f (.slot k) (f.regs s)) (fun _ _ => False) cg := by
  rw [wp_cgStwSpOff]
  have hrun := runs_stwSpOff host hcode hs (inMemory_valSlotOff hok hin hk)
  rw [toNat_valSlotOff hok hin hk] at hrun
  have hag : f.AgreesOff OnlyR254 (f.setReg cgRegScratch (f.regs regSp + cg.valSlotOff k)) := .setReg _ rfl
  have hset : (f.setLoc cg (.slot k) (f.regs s)).AgreesOff OnlyR254 _ := hag.setLoc not_onlyR254_sp (.slot k) (f.regs s)
  simp only [Frame.setLoc, slotAddr_of_sp (hag.regs regSp not_onlyR254_sp)] at hset
  exact ⟨rfl, _, .of_runs hrun, hset⟩

/-- `cg_phi_write_from`. -/
theorem wp_cgPhiWriteFrom (hok : cg.Ok) (hin : InFrame cg img f) (hdst : Loc.Ok cg hi dst) {s : Byte} (hs : s ≠ cgRegScratch) :
    Exec.wp (cgPhiWriteFrom dst s) (fun _ => Writes img host OnlyR254 cg f dst (f.regs s)) (fun _ _ => False) cg := by
  rw [cgPhiWriteFrom, Exec.wp_bind, Exec.wp_get]
  cases dst with
  | slot k => exact wp_stwSlot host hcode hok hin hdst hs
  | reg r =>
    rw [Exec.wp_when]
    refine ⟨fun _ => ?_, fun heq => ?_⟩
    · rw [wp_cgEmit]
      exact ⟨rfl, _, .of_runs (runs_mov host hcode r s 0), .refl _ _⟩
    · obtain rfl : r = s := not_not.mp heq
      have hself : f.setLoc cg (.reg r) (f.regs r) = f := by
        simp only [Frame.setLoc, Frame.setReg, Function.update_eq_self]
      exact ⟨rfl, f, .refl, by rw [hself]; exact .refl _ f⟩

/-- Code that only changes scratch registers and leaves the value in one of them, and then writes it. -/
theorem wp_writeAfter (hok : cg.Ok) (hin : InFrame cg img f) (hdst : Loc.Ok cg hi dst) {cg₁ : Cg} {f₁ : Frame κ W} {s : Byte} {v : Word}
    (hem : Emitted img host cg cg₁ f f₁) (hag : f.AgreesOff (Scratch hi) f₁) (hlo : cg.ssaRegHigh ≤ cg₁.nextReg)
    (hle : cg₁.nextReg ≤ cgMaxEmitReg + 1) (hs : s ≠ cgRegScratch) (hv : f₁.regs s = v) :
    Exec.wp (cgPhiWriteFrom dst s) (fun _ cg₂ => cg₂.nextReg = cg₁.nextReg ∧
      ∃ f₂, Emitted img host cg cg₂ f f₂ ∧ (f.setLoc cg dst v).AgreesOff (Scratch hi) f₂) (fun _ _ => False) cg₁ := by
  have hin₁ : InFrame cg₁ img f₁ := (hin.of_agrees hag (not_scratch_of_gt (Or.inr rfl))).of_emitted hem
  have hdst₁ : Loc.Ok cg₁ hi dst := by
    obtain ⟨_, _, rfl, _⟩ := hem
    exact hdst
  refine Exec.wp_mono ?_ (fun _ _ h => h) (wp_cgPhiWriteFrom host hcode (hem.ok hok hlo hle) hin₁ hdst₁ hs)
  rintro _ cg₂ ⟨hnext, f₂, hem₂, hag₂⟩
  have hset : (f.setLoc cg dst v).AgreesOff (Scratch hi) (f₁.setLoc cg dst v) := hag.setLoc (not_scratch_of_gt (Or.inr rfl)) dst v
  have hsame : f₁.setLoc cg₁ dst v = f₁.setLoc cg dst v := by
    cases dst with
    | reg r => rfl
    | slot k => simp only [Frame.setLoc, hem.slotAddr_eq]
  rw [hv, hsame] at hag₂
  exact ⟨hnext, f₂, hem.trans hcode hem₂, hset.trans (hag₂.mono fun r hr => hr.scratch hi)⟩

/-- `cg_phi_copy_loc`. -/
theorem wp_cgPhiCopyLoc (hok : cg.Ok) (hin : InFrame cg img f) (hhi : hi ≤ cgMaxEmitReg + 1) (hsrc : Loc.Ok cg hi src)
    (hdst : Loc.Ok cg hi dst) (hne : src ≠ dst) {stage : Byte} (hstage : Scratch hi stage) (hs : stage ≠ cgRegScratch) :
    Exec.wp (cgPhiCopyLoc dst src stage) (fun _ => Writes img host (Scratch hi) cg f dst (locWord cg f src)) (fun _ _ => False) cg := by
  unfold cgPhiCopyLoc
  rw [Exec.wp_when]
  refine ⟨fun _ => ?_, fun h => absurd hne h⟩
  have hmono : ∀ (cg' : Cg) (d : Loc) (v : Word), Writes img host OnlyR254 cg f d v cg' → Writes img host (Scratch hi) cg f d v cg' :=
    fun _ _ _ h => h.mono fun r hr => hr.scratch hi
  cases src with
  | slot k =>
    cases dst with
    | slot j =>
      simp only [Exec.wp_bind]
      refine Exec.wp_mono ?_ (fun _ _ h => h) (wp_cgPhiReadTo host hcode hok hin hsrc stage)
      rintro _ cg₁ ⟨hnext, f₁, hem, hag⟩
      have hval : f₁.regs stage = locWord cg f (.slot k) := by
        rw [hag.regs stage hs]
        exact Frame.setReg_same ..
      have hstep : f.AgreesOff (Scratch hi) f₁ :=
        (Frame.AgreesOff.setReg _ hstage).trans (hag.mono fun r hr => hr.scratch hi)
      refine Exec.wp_mono ?_ (fun _ _ h => h)
        (wp_writeAfter host hcode hok hin hdst hem hstep (hnext ▸ hok.high_le) (hnext ▸ hok.next_le) hs hval)
      exact fun _ cg₂ h => ⟨h.1.trans hnext, h.2⟩
    | reg d => exact Exec.wp_mono (fun _ cg' h => hmono cg' _ _ h) (fun _ _ h => h) (wp_cgPhiReadTo host hcode hok hin hsrc d)
  | reg s =>
    cases dst with
    | slot j =>
      have hs' : s ≠ cgRegScratch := by
        rintro rfl
        exact hsrc.not_scratch hhi (Or.inl rfl)
      exact Exec.wp_mono (fun _ cg' h => hmono cg' _ _ h) (fun _ _ h => h) (wp_cgPhiWriteFrom host hcode hok hin hdst hs')
    | reg d =>
      rw [wp_cgEmit]
      exact ⟨rfl, _, .of_runs (runs_mov host hcode d s 0), .refl _ _⟩

/-- `cg_phi_emit_const` of a value that is no result and no parameter. -/
theorem wp_cgPhiEmitConst (hok : cg.Ok) (hin : InFrame cg img f) (hhi : hi ≤ cg.nextReg) (hdst : Loc.Ok cg hi dst) (cv : Val) :
    Exec.wp (cgPhiEmitConst dst cv) (fun _ => Writes img host (Scratch hi) cg f dst (operandWord cg f cv))
      (cg.Stops (cg.Rejects cv) (cg.regsTaken cv)) cg := by
  simp only [cgPhiEmitConst, Exec.wp_bind, Exec.wp_get]
  refine Exec.wp_mono ?_ (fun _ _ he => he.2) (Exec.wp_and (wp_cgRegFor host hcode hok hin cv) (takes_cgRegFor hok.pool cv))
  rintro r cg₁ ⟨⟨f₁, hem, hag, hle, hnext, hval, hstable⟩, -⟩
  have hs : r ≠ cgRegScratch := by
    rintro rfl
    have h254 : cgRegScratch.toNat = 254 := rfl
    have h252 : cgMaxEmitReg = 252 := rfl
    rcases hstable with hlt | hz
    · omega
    · exact absurd hz (by decide)
  refine Exec.wp_mono ?_ (fun _ _ h => h.elim) (wp_writeAfter host hcode hok hin hdst hem (hag.mono fun r hr => hr.mono hhi)
    (Nat.le_trans hok.high_le hle) hnext hs hval)
  rintro _ cg₂ ⟨_, f₂, hem₂, hag₂⟩
  rw [Exec.wp_modify]
  exact ⟨rfl, f₂, hem₂.trans hcode (.alloc cg.nextReg), hag₂⟩

/-- `cg_phi_emit_word`. -/
theorem wp_cgPhiEmitWord (hok : cg.Ok) (hin : InFrame cg img f) (hdst : Loc.Ok cg hi dst) {stage : Byte} (hstage : Scratch hi stage)
    (hs : stage ≠ cgRegScratch) (w : Word) :
    Exec.wp (cgPhiEmitWord dst w stage) (fun _ => Writes img host (Scratch hi) cg f dst w) (fun _ _ => False) cg := by
  cases dst with
  | slot k =>
    simp only [cgPhiEmitWord, Exec.wp_bind, wp_cgEmitLoadConst32]
    have hem : Emitted img host cg (cg.emit (loadConst32Words stage w)) f (f.setReg stage w) :=
      .of_runs (runs_loadConst32 host hcode stage w)
    exact wp_writeAfter host hcode hok hin hdst hem (.setReg _ hstage) hok.high_le hok.next_le hs (Frame.setReg_same ..)
  | reg r =>
    rw [cgPhiEmitWord, wp_cgEmitLoadConst32]
    exact ⟨rfl, _, .of_runs (runs_loadConst32 host hcode r w), .refl _ _⟩

end copies

end CronoVM
