import CronoVM.Lemmas.WideWords
import CronoVM.Translator.RuntimeCall

/-!
# Runs through a call of the runtime

What the code around a call of a runtime helper does: it saves registers in their part of the frame, loads the words of the operands into
the registers from R0 on and restores the saved registers after the call.
-/

namespace CronoVM

open Checked Ir

variable {κ W : Type}

/-! ## Saved registers -/

/-- The words of `cg_emit_spill`. -/
def spillWords (set : List (Byte × Word)) : List Word := set.flatMap fun e => stwSpOffWords e.2 e.1

/-- The words of `cg_emit_restore`. -/
def restoreWords (set : List (Byte × Word)) : List Word := set.flatMap fun e => ldwSpOffWords e.1 e.2

/-- The registers are those of values, and their offsets lie in the part of the frame for saved registers. -/
def SavedIn (cg : Cg) (set : List (Byte × Word)) : Prop :=
  ∀ e ∈ set, 8 ≤ e.1.toNat ∧ e.1.toNat < cg.ssaRegHigh ∧ ∃ n, e.2 = BitVec.ofNat 32 (cg.allocaBytes + n) ∧ n + 4 ≤ cg.spillBytes

/-- The frames agree but for R254, the pc and the part for saved registers. -/
structure SavesIn (cg : Cg) (f g : Frame κ W) : Prop where
  regs : ∀ r, r ≠ cgRegScratch → g.regs r = f.regs r
  size : g.heap.size = f.heap.size
  bytes : ∀ p, (f.regs regSp).toNat + (cg.allocaBytes + cg.spillBytes) ≤ p → g.heap.byte p = f.heap.byte p

section emission

variable {Q : Unit → Cg → Prop} {E : CgError → Cg → Prop} {cg : Cg}

@[simp] theorem wp_cgEmitSpill (set : List (Byte × Word)) :
    Exec.wp (cgEmitSpill set) Q E cg ↔ Q () (cg.emit (spillWords set)) := by
  induction set generalizing cg with
  | nil => simp [cgEmitSpill, spillWords, Cg.emit]
  | cons e set ih =>
    obtain ⟨r, off⟩ := e
    simp only [cgEmitSpill, Exec.wp_bind, wp_cgStwSpOff, ih, Cg.emit_emit, spillWords, List.flatMap_cons]

@[simp] theorem wp_cgEmitRestore (set : List (Byte × Word)) :
    Exec.wp (cgEmitRestore set) Q E cg ↔ Q () (cg.emit (restoreWords set)) := by
  induction set generalizing cg with
  | nil => simp [cgEmitRestore, restoreWords, Cg.emit]
  | cons e set ih =>
    obtain ⟨r, off⟩ := e
    simp only [cgEmitRestore, Exec.wp_bind, wp_cgLdwSpOff, ih, Cg.emit_emit, restoreWords, List.flatMap_cons]

end emission

/-- A register that is ever saved has its slot below the number of slots. -/
theorem slotOf_lt (info : CallInfo) {k n slot : Nat} (hk : k < n) (h : info.slotOf k = some slot) :
    slot < (List.range n).countP info.everSpilled := by
  obtain ⟨hever, hcount⟩ := Option.ite_none_right_eq_some.mp h
  obtain rfl := Option.some.inj hcount
  have hsub : (List.range (k + 1)).Sublist (List.range n) := List.range_sublist.mpr hk
  have hle := hsub.countP_le (p := info.everSpilled)
  rw [List.range_succ, List.countP_append, List.countP_singleton, if_pos hever] at hle
  exact hle

theorem savedIn_saved (info : CallInfo) {cg : Cg} (hok : cg.Ok) (hspill : cg.spillBytes = info.spillSlotCount cg.ssaRegHigh * 4) (i : Inst) :
    SavedIn cg (info.saved cg i) := by
  have hhigh := hok.high_le
  have hnext := hok.next_le
  have hmax : cgMaxEmitReg = 252 := rfl
  rintro ⟨r, off⟩ he
  obtain ⟨k, hk, hsome⟩ := List.mem_filterMap.mp he
  rw [List.mem_range] at hk
  obtain ⟨-, hslot⟩ := Option.ite_none_right_eq_some.mp hsome
  obtain ⟨slot, hslot, heq⟩ := Option.map_eq_some_iff.mp hslot
  have hlt := slotOf_lt info hk hslot
  obtain ⟨rfl, rfl⟩ := Prod.mk.inj heq
  have hr : (BitVec.ofNat 8 (8 + k)).toNat = 8 + k := by
    rw [BitVec.toNat_ofNat]
    exact Nat.mod_eq_of_lt (by omega)
  refine ⟨by rw [hr]; omega, by rw [hr]; omega, slot * 4, rfl, ?_⟩
  rw [hspill]
  unfold CallInfo.spillSlotCount
  omega

section runs

theorem SavesIn.refl (cg : Cg) (f : Frame κ W) : SavesIn cg f f := ⟨fun _ _ => rfl, rfl, fun _ _ => rfl⟩

theorem SavesIn.trans {cg : Cg} {f g h : Frame κ W} (hfg : SavesIn cg f g) (hgh : SavesIn cg g h) : SavesIn cg f h := by
  have hsp : g.regs regSp = f.regs regSp := hfg.regs regSp (by decide)
  refine ⟨fun r hr => (hgh.regs r hr).trans (hfg.regs r hr), hgh.size.trans hfg.size, fun p hp => ?_⟩
  rw [hgh.bytes p (by rw [hsp]; exact hp), hfg.bytes p hp]

/-- The slots of values lie above the saved registers. -/
theorem SavesIn.wideWords_eq {cg : Cg} {f g : Frame κ W} (h : SavesIn cg f g) (hok : cg.Ok) (v : Val) : wideWords cg g v = wideWords cg f v := by
  have hsp : g.regs regSp = f.regs regSp := h.regs regSp (by decide)
  have hzero : g.regs cg.zeroReg = f.regs cg.zeroReg := h.regs _ (by rw [hok.zero]; decide)
  have hword : ∀ k, g.heap.word (slotAddr cg g k) = f.heap.word (slotAddr cg f k) := fun k => by
    rw [slotAddr_of_sp hsp]
    refine leWord_congr fun j _ => h.bytes _ ?_
    unfold slotAddr
    omega
  simp only [wideWords, hword, hzero]

/-- Values of two words do not depend on the other registers. -/
theorem Frame.AgreesOff.wideWords_eq {cg : Cg} {S : Byte → Prop} {f g : Frame κ W} (h : f.AgreesOff S g) (hok : cg.Ok) (hsp : ¬S regSp)
    (hzero : ¬S cgRegZero) (v : Val) : wideWords cg g v = wideWords cg f v := by
  have haddr : ∀ k, slotAddr cg g k = slotAddr cg f k := slotAddr_of_sp (h.regs regSp hsp)
  have hzero' : g.regs cg.zeroReg = f.regs cg.zeroReg := h.regs _ (by rw [hok.zero]; exact hzero)
  simp only [wideWords, haddr, h.heap, hzero']

variable {img : Image κ} (host : Host κ W) (hcode : img.code.length = img.codeCount.toNat) {cg : Cg}
include hcode

/-- One register is saved. -/
theorem runs_saveReg (hok : cg.Ok) {e : Byte × Word} (he : SavedIn cg [e]) {f : Frame κ W} (hin : InFrame cg img f) :
    ∃ g, RunsTo img host (stwSpOffWords e.2 e.1) f g ∧ SavesIn cg f g := by
  obtain ⟨-, hhigh, n, hoff, hn⟩ := he e (List.mem_singleton_self e)
  have hframe := hok.frame
  have hne : e.1 ≠ cgRegScratch := by
    intro heq
    have hle := hok.high_le
    have hnext := hok.next_le
    rw [heq] at hhigh
    have hscratch : cgRegScratch.toNat = 254 := rfl
    have hmax : cgMaxEmitReg = 252 := rfl
    omega
  have haddr : (f.regs regSp + e.2).toNat = (f.regs regSp).toNat + (cg.allocaBytes + n) := by
    rw [hoff]
    exact toNat_sp_add hin (by omega)
  have hmem : InMemory img f (f.regs regSp + e.2) := by
    rw [hoff]
    exact inMemory_sp_add hin (by omega)
  refine ⟨_, runs_stwSpOff host hcode hne hmem, fun r hr => ?_, rfl, fun p hp => ?_⟩
  · rw [Frame.setWord_regs]
    exact Frame.setReg_of_ne f _ hr
  · rw [haddr]
    exact Mem.blit_byte_of_ge _ _ (by omega)

/-- All registers are saved. -/
theorem runs_spill (hok : cg.Ok) {set : List (Byte × Word)} (hset : SavedIn cg set) {f : Frame κ W} (hin : InFrame cg img f) :
    ∃ g, RunsTo img host (spillWords set) f g ∧ SavesIn cg f g := by
  induction set generalizing f with
  | nil => exact ⟨f, RunsTo.nil, .refl cg f⟩
  | cons e set ih =>
    obtain ⟨g, hrun, hsaves⟩ := runs_saveReg host hcode hok (e := e) (fun x hx => hset x (by rw [List.mem_singleton.mp hx]; exact List.mem_cons_self)) hin
    have hin' : InFrame cg img g := ⟨hsaves.size.trans hin.size, by rw [hsaves.regs regSp (by decide)]; exact hin.fits⟩
    obtain ⟨g', hrun', hsaves'⟩ := ih (fun x hx => hset x (List.mem_cons_of_mem e hx)) hin'
    exact ⟨g', hrun.append hcode hrun', hsaves.trans hsaves'⟩

/-- The saved registers are loaded; R0 to R7 and SP are as before. -/
theorem runs_restore (hok : cg.Ok) {set : List (Byte × Word)} (hset : SavedIn cg set) {f : Frame κ W} (hin : InFrame cg img f) :
    ∃ g, RunsTo img host (restoreWords set) f g ∧ g.heap = f.heap ∧ ∀ r, r.toNat < 8 ∨ r = regSp → g.regs r = f.regs r := by
  induction set generalizing f with
  | nil => exact ⟨f, RunsTo.nil, rfl, fun _ _ => rfl⟩
  | cons e set ih =>
    obtain ⟨hlow, hhigh, n, hoff, hn⟩ := hset e List.mem_cons_self
    have hframe := hok.frame
    have hle := hok.high_le
    have hnext := hok.next_le
    have hmax : cgMaxEmitReg = 252 := rfl
    have hmem : InMemory img f (f.regs regSp + e.2) := by
      rw [hoff]
      exact inMemory_sp_add hin (by omega)
    have hrun := runs_ldwSpOff host hcode e.1 hmem
    have hkeep : ∀ r, r.toNat < 8 ∨ r = regSp → ((f.setReg cgRegScratch (f.regs regSp + e.2)).setReg e.1
        (f.heap.word (f.regs regSp + e.2).toNat)).regs r = f.regs r := by
      intro r hr
      have hne : r ≠ e.1 ∧ r ≠ cgRegScratch := by
        constructor
        · rintro rfl
          rcases hr with hr | hr
          · omega
          · rw [hr] at hhigh
            exact absurd hhigh (by have hsp : regSp.toNat = 255 := rfl; omega)
        · rintro rfl
          rcases hr with hr | hr
          · exact absurd hr (by decide)
          · exact absurd hr (by decide)
      rw [Frame.setReg_of_ne _ _ hne.1, Frame.setReg_of_ne _ _ hne.2]
    have hin' : InFrame cg img ((f.setReg cgRegScratch (f.regs regSp + e.2)).setReg e.1 (f.heap.word (f.regs regSp + e.2).toNat)) :=
      ⟨hin.size, by rw [hkeep regSp (Or.inr rfl)]; exact hin.fits⟩
    obtain ⟨g, hrun', hheap, hregs⟩ := ih (fun x hx => hset x (List.mem_cons_of_mem e hx)) hin'
    exact ⟨g, hrun.append hcode hrun', hheap, fun r hr => (hregs r hr).trans (hkeep r hr)⟩

/-! ## Arguments -/

/-- A word of a value's slot in a register. -/
theorem runs_loadSlot (hok : cg.Ok) {f : Frame κ W} (hin : InFrame cg img f) {k : Nat} (hk : k < cg.valSpillCount) (r : Byte) :
    ∃ g, RunsTo img host (ldwSpOffWords r (cg.valSlotOff k)) f g ∧ f.AgreesOff (fun x => x = r ∨ x = cgRegScratch) g ∧
      g.regs r = f.heap.word (slotAddr cg f k) := by
  have hrun := runs_ldwSpOff host hcode r (inMemory_valSlotOff hok hin hk)
  rw [toNat_valSlotOff hok hin hk] at hrun
  exact ⟨_, hrun, (Frame.AgreesOff.setReg _ (Or.inr rfl)).trans (.setReg _ (Or.inl rfl)), Frame.setReg_same ..⟩

omit hcode in
/-- The registers of an argument are R0 to R7. -/
theorem arg_reg_ne {base : Byte} (hbase : base.toNat < 7) :
    base ≠ base + 1 ∧ base ≠ cgRegScratch ∧ regSp ≠ base ∧ regSp ≠ base + 1 := by
  have hnext : (base + 1).toNat = base.toNat + 1 := by
    have hone : (1 : Byte).toNat = 1 := rfl
    rw [BitVec.toNat_add, hone]
    omega
  have hscratch : cgRegScratch.toNat = 254 := rfl
  have hsp : regSp.toNat = 255 := rfl
  refine ⟨?_, ?_, ?_, ?_⟩ <;> intro h <;> have hnat := congrArg BitVec.toNat h <;> omega

/-- The words of a value go to two of the registers R0 to R7. -/
theorem wp_cgF64OperandToRegs (hok : cg.Ok) (v : Val) {base : Byte} (hbase : base.toNat < 7) :
    Exec.wp (cgF64OperandToRegs v base) (fun _ cg' => ∃ ws, cg' = cg.emit ws ∧ ∀ f : Frame κ W, InFrame cg img f → ∃ g,
      RunsTo img host ws f g ∧ f.AgreesOff (fun r => r = base ∨ r = base + 1 ∨ r = cgRegScratch) g ∧
        (g.regs base, g.regs (base + 1)) = wideWords cg f v) (fun e _ => e = .noF64Slot) cg := by
  obtain ⟨hne, hscratch, hsp, -⟩ := arg_reg_ne hbase
  unfold cgF64OperandToRegs
  split
  case h_1 clo chi hconst =>
    simp only [Exec.wp_bind, wp_cgEmitLoadConst32, Cg.emit_emit]
    refine ⟨_, rfl, fun f hin => ?_⟩
    have hnone : (cg.lookup v).bind Home.i64Slot = none := by
      cases v with
      | const c => rfl
      | loc l => cases hconst
      | block id => rfl
    have hlo := runs_loadConst32 (f := f) host hcode base clo
    have hhi := runs_loadConst32 (f := f.setReg base clo) host hcode (base + 1) chi
    have hwords : wideWords cg f v = (clo, chi) := by
      rw [wideWords, hnone, hconst]
      rfl
    refine ⟨_, hlo.append hcode hhi, (Frame.AgreesOff.setReg _ (Or.inl rfl)).trans (.setReg _ (Or.inr (Or.inl rfl))), ?_⟩
    rw [hwords, Frame.setReg_same, Frame.setReg_of_ne _ _ hne, Frame.setReg_same]
  case h_2 hconst =>
    simp only [Exec.wp_bind, Exec.wp_get]
    split
    case h_1 hslot => exact rfl
    case h_2 slot hslot =>
      simp only [Exec.wp_bind, wp_cgLdwSpOff, Cg.emit_emit, valSlotOff_add_four]
      refine ⟨_, rfl, fun f hin => ?_⟩
      have hroom : slot + 1 < cg.valSpillCount := by
        obtain ⟨home, hhome, hi64⟩ := Option.bind_eq_some_iff.mp hslot
        cases v with
        | loc l => exact hok.wide_lt l home slot hhome hi64
        | const c => cases hhome
        | block id => cases hhome
      obtain ⟨g, hlo, hag, hglo⟩ := runs_loadSlot host hcode hok hin (Nat.lt_of_succ_lt hroom) base
      have hsp' : ¬(regSp = base ∨ regSp = cgRegScratch) := fun h => h.elim hsp (by decide)
      have hin' : InFrame cg img g := hin.of_agrees hag hsp'
      obtain ⟨g', hhi, hag', hghi⟩ := runs_loadSlot host hcode hok hin' hroom (base + 1)
      have haddr : slotAddr cg g (slot + 1) = slotAddr cg f (slot + 1) :=
        slotAddr_of_sp (hag.regs regSp hsp') _
      refine ⟨g', hlo.append hcode hhi, (hag.mono ?_).trans (hag'.mono ?_), ?_⟩
      · exact fun r hr => hr.imp id Or.inr
      · exact fun r hr => Or.inr hr
      · rw [wideWords, hslot, hghi, haddr, hag.heap, hag'.regs base (fun h => h.elim hne hscratch), hglo]

/-! ## The call -/

omit hcode in
/-- A call of function number `fid`, with SP at `sp` and the words of two doubles in R0 to R3, returns `v` in R0. It leaves SP, and the
memory from SP on, as they are. -/
def ReturnsWord (img : Image κ) (host : Host κ W) (fid sp : Word) (a b : CvmF64) (v : Word) : Prop :=
  ∀ g : Frame κ W, g.heap.size = img.memSize.toNat → g.regs regSp = sp → g.regs 0 = a.lo → g.regs 1 = a.hi → g.regs 2 = b.lo →
    g.regs 3 = b.hi → RunsInto img host [encI24 .call fid] g fun g' => g'.regs 0 = v ∧ g'.regs regSp = sp ∧
      g'.heap.size = g.heap.size ∧ ∀ p, sp.toNat ≤ p → g'.heap.byte p = g.heap.byte p

/-- The double in the two words of an operand. -/
def floatVal (cg : Cg) (f : Frame κ W) (v : Val) : CvmF64 := ⟨(wideWords cg f v).1, (wideWords cg f v).2⟩

/-- The code of a call with two doubles and a word as its result leaves what the helper returns in the register of the result. -/
theorem wp_cgEmitRuntimeCall (hok : cg.Ok) {f : Frame κ W} (hin : InFrame cg img f) (info : CallInfo)
    (hspill : cg.spillBytes = info.spillSlotCount cg.ssaRegHigh * 4) (i : Inst) (name : String) (x y : Val) (dst : Byte) {v : Word}
    (hcall : ∀ k, info.funcByName name = some k →
      ReturnsWord img host (BitVec.ofNat 32 ((k + 1) * 2)) (f.regs regSp) (floatVal cg f x) (floatVal cg f y) v) :
    Exec.wp (cgEmitRuntimeCall info i name [x, y] none none dst 0)
      (fun _ cg' => ∃ ws, cg' = cg.emit ws ∧ RunsInto img host ws f fun g => g.regs dst = v)
      (fun e _ => e = .noF64Slot ∨ e = .helperNotFound) cg := by
  have hset := savedIn_saved info hok hspill i
  unfold cgEmitRuntimeCall
  split
  case h_1 => exact Or.inr rfl
  case h_2 k hname =>
    simp only [Exec.wp_bind, Exec.wp_get, wp_cgEmitSpill, cgResultPointer, Exec.wp_pure, cgWideArgs, cgScalarArg, wp_cgEmit,
      wp_cgEmitRestore, Exec.wp_when]
    obtain ⟨f₁, hrun₁, hsaves⟩ := runs_spill host hcode hok hset hin
    have hsp₁ : f₁.regs regSp = f.regs regSp := hsaves.regs regSp (by decide)
    have hin₁ : InFrame cg img f₁ := ⟨hsaves.size.trans hin.size, by rw [hsp₁]; exact hin.fits⟩
    have hok₁ : (cg.emit (spillWords (info.saved cg i))).Ok := { hok with }
    refine Exec.wp_mono ?_ (fun e _ he => Or.inl he) (wp_cgF64OperandToRegs host hcode hok₁ x (by decide))
    rintro - cg₂ ⟨ws₂, rfl, hload₂⟩
    obtain ⟨f₂, hrun₂, hag₂, hwords₂⟩ := hload₂ f₁ ⟨hin₁.size, hin₁.fits⟩
    have hin₂ : InFrame cg img f₂ := hin₁.of_agrees hag₂ (by decide)
    have hok₂ : ((cg.emit (spillWords (info.saved cg i))).emit ws₂).Ok := { hok with }
    refine Exec.wp_mono ?_ (fun e _ he => Or.inl he) (wp_cgF64OperandToRegs host hcode hok₂ y (by decide))
    rintro - cg₃ ⟨ws₃, rfl, hload₃⟩
    obtain ⟨f₃, hrun₃, hag₃, hwords₃⟩ := hload₃ f₂ ⟨hin₂.size, hin₂.fits⟩
    have hin₃ : InFrame cg img f₃ := hin₂.of_agrees hag₃ (by decide)
    have hsp₃ : f₃.regs regSp = f.regs regSp := ((hag₃.regs regSp (by decide)).trans (hag₂.regs regSp (by decide))).trans hsp₁
    have hx : (f₃.regs 0, f₃.regs 1) = wideWords cg f x := by
      rw [hag₃.regs 0 (by decide), hag₃.regs 1 (by decide)]
      exact hwords₂.trans (hsaves.wideWords_eq hok x)
    have hy : (f₃.regs 2, f₃.regs 3) = wideWords cg f y :=
      (hwords₃.trans (hag₂.wideWords_eq hok (by decide) (by decide) y)).trans (hsaves.wideWords_eq hok y)
    have hbefore := (hrun₁.append hcode hrun₂).append hcode hrun₃
    have hreturn := hcall k hname f₃ hin₃.size hsp₃ (congrArg Prod.fst hx) (congrArg Prod.snd hx) (congrArg Prod.fst hy)
      (congrArg Prod.snd hy)
    have hrestore : ∀ f₄ : Frame κ W, (f₄.regs 0 = v ∧ f₄.regs regSp = f.regs regSp ∧ f₄.heap.size = f₃.heap.size ∧
        ∀ p, (f.regs regSp).toNat ≤ p → f₄.heap.byte p = f₃.heap.byte p) →
        RunsInto img host (restoreWords (info.saved cg i)) f₄ fun g => g.regs 0 = v := by
      rintro f₄ ⟨hval, hsp₄, hsize₄, -⟩
      have hin₄ : InFrame cg img f₄ := ⟨hsize₄.trans hin₃.size, by rw [hsp₄]; exact hin.fits⟩
      obtain ⟨f₅, hrun₅, -, hregs₅⟩ := runs_restore host hcode hok hset hin₄
      exact .of_runs hrun₅ ((hregs₅ 0 (Or.inl (by decide))).trans hval)
    have hrestored := (RunsInto.after hcode hbefore hreturn).append hcode hrestore
    simp only [Cg.emit_emit]
    by_cases hdst : dst = 0
    · refine ⟨fun h => absurd hdst h.2, fun _ => ⟨_, rfl, ?_⟩⟩
      rw [hdst]
      simpa only [List.append_assoc] using hrestored
    · refine ⟨fun _ => ⟨_, rfl, ?_⟩, fun h => absurd ⟨trivial, hdst⟩ h⟩
      simpa only [List.append_assoc] using hrestored.append hcode (Q := fun g => g.regs dst = v) fun g hg =>
        .of_runs (runs_mov host hcode dst 0 0) (by rw [Frame.setReg_same, hg])

end runs

end CronoVM
