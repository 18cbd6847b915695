import CronoVM.Lemmas.WordSteps
import Mathlib.Data.List.TakeWhile

/-!
# The entry of a function

The code in front of the blocks takes the frame, brings the arguments to the homes of the parameters, and sets the zero register. So a
function that is called with its arguments in place comes to its first block, with what is live there in its home.
-/

namespace CronoVM

open Checked Ir

variable {κ W : Type}

/-- Argument word `j` of a function whose return address is at `base`. -/
def argAt (f : Frame κ W) (base j : Nat) : Word :=
  if j < 8 then f.regs (BitVec.ofNat 8 j) else f.heap.word (base + 4 + (j - 8) * 4)

theorem argAt_congr {f f' : Frame κ W} (hheap : f'.heap = f.heap) (hlow : ∀ r : Byte, r.toNat < 8 → f'.regs r = f.regs r) (base j : Nat) :
    argAt f' base j = argAt f base j := by
  unfold argAt
  split
  · refine hlow _ ?_
    rw [BitVec.toNat_ofNat]
    omega
  · rw [hheap]

/-! ## The prologue -/

/-- The first `k` parameters are in their homes; memory, SP and the registers of arguments are as before. -/
structure ParamsTaken (cg : Cg) (f f' : Frame κ W) (base k : Nat) : Prop where
  heap : f'.heap = f.heap
  kept : ∀ r : Byte, r.toNat < 8 ∨ r = regSp → f'.regs r = f.regs r
  taken : ∀ j < k, ∀ r, cg.home? (.arg j) = some { reg := r } → f'.regs r = argAt f base j

section prologue

variable {img : Image κ} {fn : Func} {cg d : Cg} {f f₁ f₂ : Frame κ W} {base k : Nat}

/-- The register of a value is none of those that the code generator keeps to itself. -/
theorem home_reg_ne (hok : cg.Ok) {l : Local} {r : Byte} (hhome : cg.home? l = some { reg := r }) :
    r ≠ regSp ∧ r ≠ cgRegScratch ∧ r ≠ cgRegZero := by
  have hlt : r.toNat < cg.ssaRegHigh := hok.reg_lt l _ hhome
  have hhigh := hok.high_le
  have hnext := hok.next_le
  have hmax : cgMaxEmitReg = 252 := rfl
  have hle : r.toNat ≤ 252 := by omega
  refine ⟨?_, ?_, ?_⟩ <;> rintro rfl <;> exact absurd hle (by decide)

/-- The next parameter comes to its home. -/
theorem ParamsTaken.next (h : ParamsTaken cg f f₁ base k) (hok : cg.Ok) (hhomes : Homes fn cg) {r : Byte}
    (hhome : cg.home? (.arg k) = some { reg := r }) (hr : 8 ≤ r.toNat) (hheap : f₂.heap = f₁.heap) (hval : f₂.regs r = argAt f₁ base k)
    (hregs : ∀ s, s ≠ r → s ≠ cgRegScratch → f₂.regs s = f₁.regs s) : ParamsTaken cg f f₂ base (k + 1) := by
  obtain ⟨hsp, -, -⟩ := home_reg_ne hok hhome
  refine ⟨hheap.trans h.heap, fun s hs => ?_, fun j hj s hs => ?_⟩
  · rw [← h.kept s hs]
    rcases hs with hlow | rfl
    · refine hregs s ?_ ?_
      · rintro rfl
        omega
      · rintro rfl
        exact absurd hlow (by decide)
    · exact hregs regSp (Ne.symm hsp) (by decide)
  · rcases Nat.lt_succ_iff_lt_or_eq.mp hj with hlt | rfl
    · obtain ⟨-, hscratch, -⟩ := home_reg_ne hok hs
      rw [hregs s ?_ hscratch]
      · exact h.taken j hlt s hs
      · rintro rfl
        exact absurd (hhomes.args j k s hs hhome) (Nat.ne_of_lt hlt)
    · rw [hhome] at hs
      cases hs
      rw [hval, argAt_congr h.heap fun s hs => h.kept s (Or.inl hs)]

/-- The pointers to the allocas `es`: each is in the register of its alloca, unless a later one has the same; other registers are as before. -/
structure PointersTaken (cg : Cg) (f f' : Frame κ W) (es : List (Local × Word)) : Prop where
  heap : f'.heap = f.heap
  kept : ∀ r, r ≠ cgRegScratch → (∀ e ∈ es, cg.home? e.1 ≠ some { reg := r }) → f'.regs r = f.regs r
  taken : ∀ before e after r, es = before ++ e :: after → cg.home? e.1 = some { reg := r } → (∀ e' ∈ after, cg.home? e'.1 ≠ some { reg := r }) →
    f'.regs r = f.regs regSp + e.2

/-- One pointer more: its register has the address, unless a later one has it too. -/
theorem PointersTaken.cons {e : Local × Word} {es : List (Local × Word)} (h : PointersTaken cg f₁ f₂ es) (hheap : f₁.heap = f.heap)
    (hsp : f₁.regs regSp = f.regs regSp) (hval : ∀ r, cg.home? e.1 = some { reg := r } → r ≠ cgRegScratch ∧ f₁.regs r = f.regs regSp + e.2)
    (hkept : ∀ r, r ≠ cgRegScratch → cg.home? e.1 ≠ some { reg := r } → f₁.regs r = f.regs r) : PointersTaken cg f f₂ (e :: es) := by
  refine ⟨h.heap.trans hheap, ?_, ?_⟩
  · intro r hr hnone
    rw [h.kept r hr fun e' he' => hnone e' (List.mem_cons_of_mem e he')]
    exact hkept r hr (hnone e List.mem_cons_self)
  · intro before e' after r heq hhome hafter
    cases before with
    | nil =>
      obtain ⟨rfl, rfl⟩ := List.cons.inj heq
      obtain ⟨hscratch, haddr⟩ := hval r hhome
      rw [h.kept r hscratch hafter, haddr]
    | cons x before =>
      obtain ⟨-, rfl⟩ := List.cons.inj heq
      rw [h.taken before e' after r rfl hhome hafter, hsp]

/-- The frame in front of the first block: parameters and pointers to allocas are in their registers, unless an alloca has the same. -/
structure Opened (fn : Func) (cg : Cg) (f f' : Frame κ W) (base : Nat) (allocas : List (Local × Word)) : Prop where
  heap : f'.heap = f.heap
  sp : (f'.regs regSp).toNat + cg.frameBytes = base
  zero : f'.regs cgRegZero = 0
  params : ∀ j < fn.params.length, ∀ r, cg.home? (.arg j) = some { reg := r } → (∀ e ∈ allocas, cg.home? e.1 ≠ some { reg := r }) →
    f'.regs r = argAt f base j
  pointers : ∀ before e after r, allocas = before ++ e :: after → cg.home? e.1 = some { reg := r } →
    (∀ e' ∈ after, cg.home? e'.1 ≠ some { reg := r }) → f'.regs r = f'.regs regSp + e.2

/-- The frame is taken, and then come the parameters, the zero register and the pointers. -/
theorem opened_of_taken {g : Frame κ W} {allocas : List (Local × Word)} (hok : cg.Ok) (hheap : f₁.heap = f.heap)
    (hlow : ∀ r : Byte, r.toNat < 8 → f₁.regs r = f.regs r) (hsp : (f₁.regs regSp).toNat + cg.frameBytes = base)
    (hparams : ParamsTaken cg f₁ f₂ base fn.params.length) (hpointers : PointersTaken cg (f₂.setReg cgRegZero 0) g allocas) :
    Opened fn cg f g base allocas := by
  have hkept : ∀ r, r ≠ cgRegScratch → r = regSp ∨ r = cgRegZero → g.regs r = (f₂.setReg cgRegZero 0).regs r := by
    intro r hscratch hr
    refine hpointers.kept r hscratch ?_
    intro e _ heq
    obtain ⟨hnsp, -, hnzero⟩ := home_reg_ne hok heq
    rcases hr with rfl | rfl
    · exact hnsp rfl
    · exact hnzero rfl
  have hspKept := hkept regSp (by decide) (Or.inl rfl)
  refine ⟨hpointers.heap.trans (hparams.heap.trans hheap), ?_, ?_, ?_, ?_⟩
  · rw [hspKept, Frame.setReg_of_ne _ _ (by decide), hparams.kept regSp (Or.inr rfl)]
    exact hsp
  · rw [hkept cgRegZero (by decide) (Or.inr rfl), Frame.setReg_same]
  · intro j hj r hr hnone
    obtain ⟨-, hscratch, hne⟩ := home_reg_ne hok hr
    rw [hpointers.kept r hscratch hnone, Frame.setReg_of_ne _ _ hne, hparams.taken j hj r hr, argAt_congr hheap hlow]
  · intro before e after r heq hhome hafter
    rw [hpointers.taken before e after r heq hhome hafter, hspKept]

variable (host : Host κ W) (hcode : img.code.length = img.codeCount.toNat)
include hcode

/-- SP is moved down. -/
theorem wp_cgSpSub (n : Word) (f : Frame κ W) {Q : Unit → Cg → Prop} {E : CgError → Cg → Prop} (hQ : ∀ ws f', RunsTo img host ws f f' →
    f'.heap = f.heap → f'.regs regSp = f.regs regSp - n → (∀ r : Byte, r.toNat < 8 → f'.regs r = f.regs r) → Q () (d.emit ws)) :
    Exec.wp (cgSpSub n) Q E d := by
  rw [cgSpSub, Exec.wp_when]
  refine ⟨fun _ => ?_, fun hzero => ?_⟩
  · simp only [cgMoviScratch, Exec.wp_bind, wp_cgEmitLoadConst32, wp_cgEmit, Cg.emit_emit]
    have hsub := runs_sub (f := f.setReg cgRegScratch n) host hcode regSp regSp cgRegScratch
    rw [Frame.setReg_same, Frame.setReg_of_ne _ _ (by decide)] at hsub
    refine hQ _ _ ((runs_loadConst32 host hcode cgRegScratch n).append hcode hsub) rfl ?_ fun r hr => ?_
    · rw [Frame.setReg_same]
    · have hsp : r ≠ regSp := by
        rintro rfl
        exact absurd hr (by decide)
      have hscratch : r ≠ cgRegScratch := by
        rintro rfl
        exact absurd hr (by decide)
      rw [Frame.setReg_of_ne _ _ hsp, Frame.setReg_of_ne _ _ hscratch]
  · have hn : n = 0 := not_not.mp hzero
    have hnil := hQ [] f RunsTo.nil rfl (by rw [hn]; exact (BitVec.sub_zero _).symm) fun _ _ => rfl
    simpa only [Cg.emit, List.append_nil] using hnil

variable (hok : cg.Ok) (hhomes : Homes fn cg) (hsize : f.heap.size = img.memSize.toNat) (hsp : (f.regs regSp).toNat + cg.frameBytes = base)
variable (hroom : base + 4 + 4 * stackedWords fn.params.length ≤ img.memSize.toNat)
include hok hhomes hsize hsp hroom

/-- One parameter. -/
theorem wp_cgParam (hk : k < fn.params.length) (hd : ∃ code n, d = { cg with code := code, nextReg := n }) (h : ParamsTaken cg f f₁ base k) :
    Exec.wp (cgParam false k k) (fun word d' => word = k + 1 ∧ ∃ f₂, Emitted img host d d' f₁ f₂ ∧ ParamsTaken cg f f₂ base (k + 1))
      (fun _ _ => True) d := by
  obtain ⟨code, n, rfl⟩ := hd
  obtain ⟨r, hhome, hr⟩ := hhomes.arg k hk
  have hhome' : ({ cg with code := code, nextReg := n } : Cg).home? (.arg k) = some { reg := r } := hhome
  unfold cgParam cgParamWord
  rw [Exec.wp_bind, Exec.wp_get]
  simp only [hhome', Exec.wp_bind, Exec.wp_get, Exec.wp_ite, Exec.wp_pure, true_and]
  refine ⟨fun hk8 => ?_, fun hk8 => ?_⟩
  · have hlow : (BitVec.ofNat 8 k).toNat = k := by
      rw [BitVec.toNat_ofNat]
      omega
    have hne : r ≠ BitVec.ofNat 8 k := fun heq => by
      rw [heq, hlow] at hr
      omega
    rw [cgMoveTo, Exec.wp_when]
    refine ⟨fun _ => ?_, fun hno => absurd (Ne.symm hne) hno⟩
    refine ⟨f₁.setReg r (f₁.regs (BitVec.ofNat 8 k)), .of_runs (runs_mov host hcode r _ 0), ?_⟩
    refine h.next hok hhomes hhome hr rfl ?_ fun s hs _ => Frame.setReg_of_ne _ _ hs
    rw [Frame.setReg_same, argAt, if_pos hk8]
  · have hstacked : stackedWords fn.params.length = fn.params.length - 8 := rfl
    have hlt := img.memSize.isLt
    have haddr : (f₁.regs regSp + Cg.argOff { cg with code := code, nextReg := n } false k).toNat = base + 4 + (k - 8) * 4 := by
      have hoff : Cg.argOff { cg with code := code, nextReg := n } false k = BitVec.ofNat 32 (cg.frameBytes + 4 + (k - 8) * 4) := rfl
      rw [hoff, h.kept regSp (Or.inr rfl), BitVec.toNat_add, BitVec.toNat_ofNat]
      omega
    have hmem : InMemory img f₁ (f₁.regs regSp + Cg.argOff { cg with code := code, nextReg := n } false k) := by
      refine ⟨by rw [h.heap]; exact hsize, ?_⟩
      rw [haddr, h.heap, hsize]
      omega
    rw [wp_cgLdwSpOff]
    refine ⟨_, .of_runs (runs_ldwSpOff host hcode r hmem), h.next hok hhomes hhome hr rfl ?_ fun s hs hscratch => ?_⟩
    · rw [Frame.setReg_same, haddr, argAt, if_neg hk8]
    · rw [Frame.setReg_of_ne _ _ hs, Frame.setReg_of_ne _ _ hscratch]

/-- The parameters from `k` on. -/
theorem wp_cgParams {left : Nat} (hlen : k + left = fn.params.length) (hd : ∃ code n, d = { cg with code := code, nextReg := n })
    (h : ParamsTaken cg f f₁ base k) : Exec.wp (cgParams false left k k)
      (fun _ d' => ∃ f₂, Emitted img host d d' f₁ f₂ ∧ ParamsTaken cg f f₂ base fn.params.length) (fun _ _ => True) d := by
  induction left generalizing k d f₁ with
  | zero =>
    obtain rfl : k = fn.params.length := hlen
    exact ⟨f₁, .refl, h⟩
  | succ left ih =>
    unfold cgParams
    rw [Exec.wp_bind]
    refine Exec.wp_mono ?_ (fun _ _ h => h) (wp_cgParam host hcode hok hhomes hsize hsp hroom (by omega) hd h)
    rintro word d₂ ⟨rfl, f₂, hem, h₂⟩
    have hd₂ : ∃ code n, d₂ = { cg with code := code, nextReg := n } := by
      obtain ⟨code, n, rfl⟩ := hd
      obtain ⟨ws, m, rfl, -⟩ := hem
      exact ⟨_, _, rfl⟩
    refine Exec.wp_mono ?_ (fun _ _ h => h) (ih (by omega) hd₂ h₂)
    rintro _ d₃ ⟨f₃, hem₃, h₃⟩
    exact ⟨f₃, hem.trans hcode hem₃, h₃⟩

omit hsize hsp hroom

theorem wp_cgAllocaPtrs {es : List (Local × Word)} (hd : ∃ code n, d = { cg with code := code, nextReg := n }) :
    Exec.wp (cgAllocaPtrs es) (fun _ d' => ∃ f', Emitted img host d d' f f' ∧ PointersTaken cg f f' es) (fun _ _ => True) d := by
  induction es generalizing d f with
  | nil => exact ⟨f, .refl, rfl, fun _ _ _ => rfl, fun before _ _ _ heq => absurd heq (by simp)⟩
  | cons e es ih =>
    obtain ⟨code, n, rfl⟩ := hd
    unfold cgAllocaPtrs
    rw [Exec.wp_bind, Exec.wp_get]
    cases hhome : cg.home? e.1 with
    | none =>
      have hhome' : ({ cg with code := code, nextReg := n } : Cg).home? e.1 = none := hhome
      simp only [hhome', Exec.wp_stop]
    | some home =>
      have hhome' : ({ cg with code := code, nextReg := n } : Cg).home? e.1 = some home := hhome
      simp only [hhome', Exec.wp_bind, Emit.inst, Exec.wp_zoom, id_eq, cgMoviScratch, wp_cgEmitLoadConst32, Exec.wp_when, wp_cgEmit, Cg.emit_emit]
      have hload := runs_loadConst32 (f := f) host hcode cgRegScratch e.2
      rcases hhomes.plain e.1 home hhome with ⟨r, rfl, hr, -⟩ | ⟨slot, rfl, -⟩
      · obtain ⟨hsp, hscratch, -⟩ := home_reg_ne hok hhome
        refine ⟨fun _ => ?_, fun hno => ?_⟩
        · have hadd := runs_add (f := f.setReg cgRegScratch e.2) host hcode r regSp cgRegScratch
          rw [Frame.setReg_same, Frame.setReg_of_ne _ _ (by decide)] at hadd
          have hruns := hload.append hcode hadd
          refine Exec.wp_mono ?_ (fun _ _ h => h) (ih (f := (f.setReg cgRegScratch e.2).setReg r (f.regs regSp + e.2)) ⟨_, _, rfl⟩)
          rintro _ d' ⟨f', hem, h⟩
          refine ⟨f', Emitted.trans hcode (.of_runs hruns) hem, h.cons rfl ?_ ?_ ?_⟩
          · rw [Frame.setReg_of_ne _ _ (Ne.symm hsp), Frame.setReg_of_ne _ _ (by decide)]
          · intro s hs
            rw [hhome] at hs
            cases hs
            exact ⟨hscratch, Frame.setReg_same ..⟩
          · intro s hs hnone
            have hne : s ≠ r := by
              rintro rfl
              exact hnone hhome
            rw [Frame.setReg_of_ne _ _ hne, Frame.setReg_of_ne _ _ hs]
        · obtain rfl : r = cgRegSpilled := not_not.mp hno
          exact absurd hr (by decide)
      · refine ⟨fun hno => absurd rfl hno, fun _ => ?_⟩
        refine Exec.wp_mono ?_ (fun _ _ h => h) (ih (f := f.setReg cgRegScratch e.2) ⟨_, _, rfl⟩)
        rintro _ d' ⟨f', hem, h⟩
        refine ⟨f', Emitted.trans hcode (.of_runs hload) hem, h.cons rfl (Frame.setReg_of_ne _ _ (by decide)) ?_ ?_⟩
        · intro s hs
          rw [hhome] at hs
          cases hs
        · intro s hs _
          exact Frame.setReg_of_ne _ _ hs

include hsize hroom

/-- The code in front of the blocks, where there are no constructors. -/
theorem wp_cgFnPrologue {allocas : List (Local × Word)} (hfixed : fn.vararg = false) (hbase : (f.regs regSp).toNat = base)
    (hframe : cg.frameBytes ≤ base) : Exec.wp (cgFnPrologue fn [] allocas)
      (fun _ d' => ∃ f', Emitted img host cg d' f f' ∧ Opened fn cg f f' base allocas) (fun _ _ => True) cg := by
  have hlt := (f.regs regSp).isLt
  unfold cgFnPrologue
  simp only [Exec.wp_bind, Exec.wp_get, Emit.inst, Exec.wp_zoom, id_eq]
  refine wp_cgSpSub host hcode _ f fun ws f₁ hruns₁ hheap₁ hsp₁ hlow₁ => ?_
  -- The frame is taken.
  have hsp₁' : (f₁.regs regSp).toNat + cg.frameBytes = base := by
    rw [hsp₁, BitVec.toNat_sub, BitVec.toNat_ofNat]
    omega
  rw [Exec.wp_modify, hfixed]
  have hstart : ParamsTaken cg f₁ f₁ base 0 := ⟨rfl, fun _ _ => rfl, fun j hj => absurd hj (Nat.not_lt_zero j)⟩
  refine Exec.wp_mono ?_ (fun _ _ _ => trivial) (wp_cgParams host hcode hok hhomes (by rw [hheap₁]; exact hsize) hsp₁' hroom (Nat.zero_add _)
    ⟨_, _, rfl⟩ hstart)
  rintro _ d₂ ⟨f₂, hem₂, h₂⟩
  have hem₁ : Emitted img host cg d₂ f f₂ := by
    obtain ⟨us, n, rfl, hruns₂⟩ := hem₂
    exact ⟨ws ++ us, n, by simp only [Cg.emit, List.append_assoc], hruns₁.append hcode hruns₂⟩
  -- The zero register is set, and there are no constructors to call.
  have hem₃ := hem₁.trans hcode (.of_runs (runs_movi (f := f₂) host hcode cgRegZero 0))
  rw [← hok.zero] at hem₃
  show Exec.wp (cgAllocaPtrs allocas) _ _ (d₂.emit [encI16 .movi cg.zeroReg 0])
  have hd₃ : ∃ code n, d₂.emit [encI16 .movi cg.zeroReg 0] = { cg with code := code, nextReg := n } := by
    obtain ⟨us, n, heq, -⟩ := hem₃
    exact ⟨_, _, heq⟩
  refine Exec.wp_mono ?_ (fun _ _ _ => trivial) (wp_cgAllocaPtrs (f := f₂.setReg cgRegZero 0) host hcode hok hhomes hd₃)
  rintro _ d₄ ⟨f₄, hem₄, h₄⟩
  rw [hok.zero] at hem₃ hem₄
  exact ⟨f₄, hem₃.trans hcode hem₄, opened_of_taken hok hheap₁ hlow₁ hsp₁' h₂ h₄⟩

end prologue

/-! ## The first block -/

section collected

variable {fn : Func} {i : Inst} {s s' : Allocas}

theorem collect_of_ne (hop : i.op ≠ .alloca) : cgCollectAlloca s i = .ok s := if_pos hop

/-- An alloca is put behind those that there are. -/
theorem collect_alloca (hop : i.op = .alloca) (h : cgCollectAlloca s i = .ok s') :
    s'.allocas.map Prod.fst = s.allocas.map Prod.fst ++ [i.result] := by
  unfold cgCollectAlloca at h
  rw [if_neg (not_not.mpr hop)] at h
  split at h
  · dsimp only at h
    split at h
    · cases h
    · obtain rfl := Except.ok.inj h
      simp only [List.map_append, List.map_cons, List.map_nil]
  · cases h

theorem collect_allocas {is : List Inst} (h : is.foldlM cgCollectAlloca s = .ok s') :
    s'.allocas.map Prod.fst = s.allocas.map Prod.fst ++ (is.filter fun i => i.op = .alloca).map Inst.result := by
  induction is generalizing s with
  | nil =>
    obtain rfl := Except.ok.inj h
    exact (List.append_nil _).symm
  | cons i is ih =>
    rw [List.foldlM_cons] at h
    by_cases hop : i.op = .alloca
    · cases hstep : cgCollectAlloca s i with
      | error e =>
        rw [hstep] at h
        cases h
      | ok s₁ =>
        rw [hstep] at h
        rw [ih h, collect_alloca hop hstep, List.filter_cons]
        simp only [hop, decide_true, if_true, List.map_cons, List.append_assoc, List.singleton_append]
    · rw [collect_of_ne hop] at h
      rw [ih h, List.filter_cons_of_neg (by simpa using hop)]

/-- The allocas of a function are those of its first block. -/
theorem collected_allocas {e : Ir.Block} {bs : List Ir.Block} (hblocks : fn.blocks = e :: bs) {frame : List (Local × Word) × Word}
    (h : cgCollectAllocas fn = .ok frame) : frame.1.map Prod.fst = (e.insts.filter fun i => i.op = .alloca).map Inst.result := by
  unfold cgCollectAllocas at h
  rw [hblocks] at h
  cases hfold : e.insts.foldlM cgCollectAlloca { cursor := 0, allocas := [] } with
  | error err =>
    simp only [List.head?_cons, Option.map_some, Option.getD_some, hfold, bind, Except.bind] at h
    cases h
  | ok s =>
    simp only [List.head?_cons, Option.map_some, Option.getD_some, hfold, bind, Except.bind] at h
    split at h
    · cases h
    · obtain rfl := Except.ok.inj h
      exact collect_allocas hfold

/-- The allocas in front of a list are its first instructions. -/
theorem filter_allocas {is : List Inst} (h : ∀ i ∈ is.dropWhile fun i => i.op = .alloca, i.op ≠ .alloca) :
    (is.filter fun i => i.op = .alloca) = is.takeWhile fun i => i.op = .alloca := by
  induction is with
  | nil => rfl
  | cons i is ih =>
    rw [List.dropWhile_cons] at h
    rw [List.takeWhile_cons]
    by_cases hop : i.op = .alloca
    · simp only [hop, decide_true, if_true] at h ⊢
      rw [List.filter_cons_of_pos (by simpa using hop), ih h]
    · simp only [hop, decide_false, Bool.false_eq_true, if_false] at h ⊢
      exact List.filter_eq_nil_iff.mpr fun j hj => by simpa using h j hj

end collected

/-- The first block is behind the prologue. -/
theorem FnStages.entry_offset {mi : ModInfo} {src : FnSource} {cg₀ cg₂ : CgFn} (st : FnStages mi src cg₀ cg₂) (hsrc : src.OfWords)
    {e : Ir.Block} {bs : List Ir.Block} (hblocks : src.fn.blocks = e :: bs) : st.whole.offsetOf e.id = st.front.code.length := by
  have hmem : ∀ b ∈ e :: bs, b ∈ src.fn.blocks := fun b hb => hblocks ▸ hb
  have hcovers : ∀ b ∈ e :: bs, ∀ i ∈ b.insts, src.fn.covers i = true := fun b hb i hi => hsrc.inst_covers (hmem b hb) hi
  have hsuccs : ∀ b ∈ e :: bs, ∀ i ∈ b.insts, i.op = .br → ∀ s ∈ i.successors, s ∈ st.targets := fun b hb i hi hop s hs =>
    (hsrc.succ_mem (hmem b hb) hi (by rw [hop]; rfl) hs).2
  have hrun := st.blocks
  rw [hblocks] at hrun
  obtain ⟨_, cgT, hturns, hrest⟩ := Exec.of_bind (m := cgTurns src.fn st.info e.insts) (s := st.front.startBlock e) hrun
  have hemits : (st.front.startBlock e).Emits st.targets cgT :=
    queuesOnly_cgTurns (hcovers e List.mem_cons_self) (hsuccs e List.mem_cons_self) _ _ _ hturns
  obtain ⟨ws, n, fs, hcgT, -⟩ := hemits (st.front_pool hsrc)
  have hpool : cgT.freeList = [] := by
    rw [hcgT]
    exact st.front_pool hsrc
  have hoffs : cgT.blockOffsets = [st.front.code.length] := by
    rw [hcgT]
    rfl
  obtain ⟨-, offs, heq, -⟩ := blocks_run (fun b hb => hcovers b (List.mem_cons_of_mem e hb)) (fun b hb => hsuccs b (List.mem_cons_of_mem e hb))
    hpool hrest
  obtain ⟨-, -, -, hids⟩ := st.whole_fixups hsrc
  have hidx : (src.fn.blocks.map Ir.Block.id).idxOf? e.id = some 0 := by
    rw [hblocks, List.map_cons, List.idxOf?_cons, if_pos (beq_self_eq_true _)]
  rw [CgFn.offsetOf, CgFn.cgFindBlock, hids, targets, hidx, heq, hoffs]
  rfl

namespace Compiled

variable {P : Program} {mi : ModInfo} {img : Image κ} {k : Nat} {src : FnSource} (c : Compiled P mi img k src)
variable {host : Host κ W} {f f' : Frame κ W} {env : Env} {base : Nat}

/-- The code in front of the blocks runs from the entry to the first block. -/
theorem goes_front {ws : List Word} (hfront : c.st.front.code = c.before.code ++ ws) (hruns : RunsTo img host ws f f') :
    Goes c.st.whole img host c.before.code.length f c.st.front.code.length f' := by
  obtain ⟨us, hwhole, -⟩ := c.st.whole_fixups c.words
  have hat : HasAt c.st.whole.code c.before.code.length ws := ⟨c.before.code, us, by rw [hwhole, hfront, List.append_assoc], rfl⟩
  rw [hfront, List.length_append]
  refine Goes.straight c.image hat (fun fx hfx _ hhi => ?_) hruns
  have hle := c.st.front_le c.words hfx
  rw [hfront, List.length_append] at hle
  omega

/-- The first block: it is behind the prologue, and its first instructions are the allocas. -/
structure EntryBlock (e : Ir.Block) : Prop where
  mem : e ∈ src.fn.blocks
  id : e.id = src.fn.entryId
  offset : c.st.whole.offsetOf e.id = c.st.front.code.length
  allocas : ∀ (k : Nat) p, c.st.frame.1[k]? = some p → ∃ i, e.body[k]? = some i ∧ i.op = .alloca ∧ i.result = p.1
  distinct : (c.st.frame.1.map Prod.fst).Nodup

theorem entryBlock : ∃ e, c.EntryBlock e := by
  obtain ⟨e, bs, hblocks, hphis, hallocas⟩ := c.words.entry
  have hmem : e ∈ src.fn.blocks := by
    rw [hblocks]
    exact List.mem_cons_self
  have hbody : e.body = e.insts := List.filter_eq_self.mpr fun i hi => decide_eq_true (hphis i hi)
  have hfst := collected_allocas hblocks c.st.collected
  rw [filter_allocas hallocas] at hfst
  refine ⟨e, hmem, ?_, c.st.entry_offset c.words hblocks, fun k p hp => ?_, ?_⟩
  · rw [Func.entryId, hblocks]
    rfl
  · have hk : ((e.insts.takeWhile fun i => i.op = .alloca).map Inst.result)[k]? = some p.1 := by
      rw [← hfst, List.getElem?_map, hp]
      rfl
    rw [List.getElem?_map] at hk
    obtain ⟨i, hi, hres⟩ := Option.map_eq_some_iff.mp hk
    have hop := List.mem_takeWhile_imp (p := fun i : Inst => decide (i.op = .alloca)) (List.mem_of_getElem? hi)
    refine ⟨i, ?_, of_decide_eq_true hop, hres⟩
    obtain ⟨hlt, -⟩ := List.getElem?_eq_some_iff.mp hi
    rw [hbody, ← List.takeWhile_append_dropWhile (p := fun i : Inst => decide (i.op = .alloca)) (l := e.insts), List.getElem?_append_left hlt, hi]
  · rw [hfst]
    have hids : (e.insts.map Inst.id).Nodup := by
      have hall := c.words.ssa.ids
      rw [Func.insts, hblocks, List.flatMap_cons, List.map_append] at hall
      exact (List.nodup_append.mp hall).1
    have hres : (e.insts.map Inst.result).Nodup := by
      have heq : e.insts.map Inst.result = (e.insts.map Inst.id).map Local.inst := by
        rw [List.map_map]
        rfl
      rw [heq]
      exact hids.map fun _ _ h => Local.inst.inj h
    exact hres.sublist ((List.takeWhile_sublist _).map _)

namespace EntryBlock

variable {c} {e : Ir.Block} (h : c.EntryBlock e) {l : Local} {pos : Nat}
include h

theorem reach (hpos : pos ≤ c.st.frame.1.length) : src.fn.graph.Reach ⟨e.id, pos⟩ := by
  induction pos with
  | zero =>
    rw [h.id]
    exact .start
  | succ pos ih =>
    obtain ⟨i, hi, -⟩ := h.allocas pos _ (List.getElem?_eq_getElem hpos)
    exact (ih (Nat.le_of_lt hpos)).move (Func.Moves.inst h.mem hi)

/-- What is live behind the allocas is live in front of those that it is not a result of. -/
theorem live_before {d : Nat} (hpos : pos + d = c.st.frame.1.length) (hlive : src.fn.graph.Live l ⟨e.id, c.st.frame.1.length⟩)
    (hother : ∀ p ∈ c.st.frame.1.drop pos, l ≠ p.1) : src.fn.graph.Live l ⟨e.id, pos⟩ := by
  induction d generalizing pos with
  | zero =>
    rw [← hpos] at hlive
    exact hlive
  | succ d ih =>
    have hlt : pos < c.st.frame.1.length := by omega
    obtain ⟨i, hi, -, hres⟩ := h.allocas pos _ (List.getElem?_eq_getElem hlt)
    have hdrop := List.drop_eq_getElem_cons hlt
    have hrest : pos + 1 + d = c.st.frame.1.length := by omega
    have hnext := ih hrest fun p hp => hother p (by rw [hdrop]; exact List.mem_cons_of_mem _ hp)
    refine Compiled.live_before h.mem hi hnext ?_
    rw [hres]
    exact hother _ (by rw [hdrop]; exact List.mem_cons_self)

/-- The instruction of an alloca. -/
theorem inst {p : Local × Word} (hp : c.st.frame.1[pos]? = some p) : ∃ i, e.body[pos]? = some i ∧ i.op = .alloca ∧ i.result = p.1 ∧
    i ∈ src.fn.insts ∧ i.ty = .pointer := by
  obtain ⟨i, hi, hop, hres⟩ := h.allocas pos p hp
  have hmem : i ∈ src.fn.insts := List.mem_flatMap.mpr ⟨e, h.mem, (Func.mem_body.mp (List.mem_of_getElem? hi)).1⟩
  have hcovers := c.words.insts i hmem
  unfold Func.covers at hcovers
  exact ⟨i, hi, hop, hres, hmem, by simpa [hop] using hcovers⟩

theorem find {p : Local × Word} (hp : p ∈ c.st.frame.1) : (c.st.frame.1.find? fun q => q.1 = p.1) = some p := by
  have hdistinct := h.distinct
  generalize c.st.frame.1 = es at hp hdistinct
  induction es with
  | nil => exact absurd hp List.not_mem_nil
  | cons q es ih =>
    rw [List.map_cons, List.nodup_cons] at hdistinct
    rcases List.mem_cons.mp hp with rfl | hp
    · exact List.find?_cons_of_pos (decide_eq_true rfl)
    · have hne : q.1 ≠ p.1 := fun heq => hdistinct.1 (heq ▸ List.mem_map_of_mem hp)
      rw [List.find?_cons]
      simp only [hne, decide_false]
      exact ih hp hdistinct.2

/-- Behind the allocas only parameters and allocas are live. -/
theorem live_cases (hlive : src.fn.graph.Live l ⟨e.id, c.st.frame.1.length⟩) : (∃ j, l = .arg j) ∨ ∃ p ∈ c.st.frame.1, l = p.1 := by
  by_contra hno
  obtain ⟨hgiven, hallocas⟩ := not_or.mp hno
  have hunset : ∀ n ≤ c.st.frame.1.length, src.fn.graph.Unset l ⟨e.id, n⟩ := by
    intro n hn
    induction n with
    | zero =>
      rw [h.id]
      exact .start hgiven
    | succ n ih =>
      obtain ⟨i, hi, -, hres⟩ := h.allocas n _ (List.getElem?_eq_getElem hn)
      refine (ih (Nat.le_of_lt hn)).move (Func.Moves.inst h.mem hi) fun hdef => hallocas ⟨_, List.getElem_mem hn, ?_⟩
      exact Eq.trans hdef hres
  exact hlive.not_unset c.words.ssa.strict (hunset _ (Nat.le_refl _))

/-- What is live behind the allocas has another home than an alloca behind it. -/
theorem apart {before after : List (Local × Word)} {p : Local × Word} (heq : c.st.frame.1 = before ++ p :: after)
    (hlive : src.fn.graph.Live l ⟨e.id, c.st.frame.1.length⟩) (hother : ∀ p' ∈ p :: after, l ≠ p'.1) : Apart c.plan l p.1 := by
  have hlen : c.st.frame.1.length = before.length + (after.length + 1) := by rw [heq, List.length_append, List.length_cons]
  have hp : c.st.frame.1[before.length]? = some p := by
    rw [heq, List.getElem?_append_right (Nat.le_refl _), Nat.sub_self]
    rfl
  obtain ⟨i, hi, -, hres⟩ := h.allocas before.length p hp
  have hdrop : c.st.frame.1.drop (before.length + 1) = after := by
    have hsplit : before ++ p :: after = (before ++ [p]) ++ after := by simp
    rw [heq, hsplit]
    exact List.drop_left' (by simp)
  have hrest : before.length + 1 + after.length = c.st.frame.1.length := by omega
  have hnext := h.live_before hrest hlive fun p' hp' => by
    rw [hdrop] at hp'
    exact hother p' (List.mem_cons_of_mem p hp')
  rw [← hres]
  exact c.apart (h.reach (by omega)) (Func.Moves.inst h.mem hi) rfl hnext (by rw [hres]; exact hother p List.mem_cons_self)

variable {r : Byte}

/-- The register of a parameter that is live behind the allocas is that of none of them. -/
theorem param_apart {j : Nat} (hlive : src.fn.graph.Live (.arg j) ⟨e.id, c.st.frame.1.length⟩) (hhome : c.plan.home? (.arg j) = some { reg := r }) :
    ∀ p ∈ c.st.frame.1, c.plan.home? p.1 ≠ some { reg := r } := by
  intro p hp hsame
  obtain ⟨before, after, heq⟩ := List.append_of_mem hp
  refine h.apart heq hlive ?_ _ _ hhome hsame rfl
  intro p' hp' heq'
  have hmem : p' ∈ c.st.frame.1 := by
    rw [heq]
    exact List.mem_append_right _ hp'
  obtain ⟨k, hk⟩ := List.mem_iff_getElem?.mp hmem
  obtain ⟨i, -, -, hres⟩ := h.allocas k p' hk
  rw [← hres] at heq'
  cases heq'

/-- The register of an alloca that is live behind them is that of no later one. -/
theorem pointer_apart {before after : List (Local × Word)} {p : Local × Word} (heq : c.st.frame.1 = before ++ p :: after)
    (hlive : src.fn.graph.Live p.1 ⟨e.id, c.st.frame.1.length⟩) (hhome : c.plan.home? p.1 = some { reg := r }) :
    ∀ p' ∈ after, c.plan.home? p'.1 ≠ some { reg := r } := by
  intro p' hp' hsame
  have hdistinct := h.distinct
  rw [heq, List.map_append, List.map_cons] at hdistinct
  obtain ⟨hnot, -⟩ := List.nodup_cons.mp (List.nodup_append.mp hdistinct).2.1
  obtain ⟨before', after', heq'⟩ := List.append_of_mem hp'
  have hsplit : c.st.frame.1 = (before ++ p :: before') ++ p' :: after' := by rw [heq, heq', List.append_assoc, List.cons_append]
  refine h.apart hsplit hlive ?_ _ _ hhome hsame rfl
  intro q hq hsame'
  have hmem : q ∈ after := by
    rw [heq']
    exact List.mem_append_right _ hq
  exact hnot (hsame' ▸ List.mem_map_of_mem hmem)

end EntryBlock

/-- No other value has the slot of a value. -/
theorem apart_of_slot {l l' : Local} {n : Nat} (hhome : c.plan.home? l' = some { reg := cgRegSpilled, valSlot := some n }) (hne : l ≠ l') :
    Apart c.plan l l' := by
  intro home home' hl hl' heq
  rw [hhome] at hl'
  obtain rfl := Option.some.inj hl'
  rcases c.homes.plain l home hl with ⟨r, rfl, -⟩ | ⟨m, rfl, -⟩
  · cases heq
  · obtain rfl : m = n := Loc.slot.inj heq
    exact hne (c.homes.slots l l' _ _ m hl hhome rfl rfl)

/-- The frame among the allocas of the first block: what is live behind them is in its home, but for allocas with slots that are still to
come. -/
structure Entering (e : Ir.Block) (pos : Nat) (env : Env) (sp : Nat) (f : Frame κ W) : Prop where
  values : ∀ l, src.fn.graph.Live l ⟨e.id, c.st.frame.1.length⟩ →
    (∀ p ∈ c.st.frame.1.drop pos, l = p.1 → ∃ r, c.plan.home? l = some { reg := r }) → HoldsWord src.fn c.plan f env l
  zero : f.regs cgRegZero = 0
  sp_eq : (f.regs regSp).toNat = sp
  size : f.heap.size = img.memSize.toNat
  fits : sp + c.plan.frameBytes ≤ img.memSize.toNat

/-- The values of a function that is called: its arguments, and the addresses of its allocas. -/
structure EntryEnv (env : Env) (f : Frame κ W) (base : Nat) : Prop where
  args : ∀ j x, env (.arg j) = some x → (src.fn.typeOf (.loc (.arg j))).Repr x (argAt f base j)
  allocas : ∀ p ∈ c.st.frame.1, env p.1 = some (BitVec.ofNat 32 (base - c.plan.frameBytes) + p.2).toNat

section entering

variable {c} {e : Ir.Block} (hblock : c.EntryBlock e)
include hblock

/-- The address of an alloca, as a word. -/
theorem alloca_repr {p : Local × Word} (hp : p ∈ c.st.frame.1) {sp : Nat} (hsp : (f.regs regSp).toNat = sp) :
    (src.fn.typeOf (.loc p.1)).Repr (BitVec.ofNat 32 sp + p.2).toNat (f.regs regSp + p.2) := by
  obtain ⟨k, hk⟩ := List.mem_iff_getElem?.mp hp
  obtain ⟨i, -, -, hres, hmem, hty⟩ := hblock.inst hk
  rw [← hres, c.words.typeOf_result hmem, hty]
  refine (Ty.repr_word rfl).mpr ?_
  rw [BitVec.ofNat_toNat, BitVec.setWidth_eq, ← hsp, BitVec.ofNat_toNat, BitVec.setWidth_eq]

/-- The prologue brings the function in front of its allocas. -/
theorem entering_front (hopened : Opened src.fn c.plan f f' base c.st.frame.1) (hsize : f.heap.size = img.memSize.toNat)
    (hbase : base ≤ img.memSize.toNat) (henv : c.EntryEnv env f base) : c.Entering e 0 env (base - c.plan.frameBytes) f' := by
  have hsp := hopened.sp
  refine ⟨fun l hlive hpending hword x hx => ?_, hopened.zero, by omega, by rw [hopened.heap, hsize], by omega⟩
  rcases hblock.live_cases hlive with ⟨j, rfl⟩ | ⟨p, hp, rfl⟩
  · have hj : j < src.fn.params.length := by
      by_contra hge
      rw [Func.typeOf, List.getD_eq_getElem?_getD, List.getElem?_eq_none (Nat.le_of_not_lt hge)] at hword
      cases hword
    obtain ⟨r, hhome, -⟩ := c.homes.arg j hj
    rw [operandWord_loc hhome]
    have hloc : locWord c.plan f' (cgPhiDstLoc { reg := r }) = f'.regs r := rfl
    rw [hloc, hopened.params j hj r hhome (hblock.param_apart hlive hhome)]
    exact henv.args j x hx
  · obtain ⟨r, hhome⟩ := hpending p hp rfl
    obtain ⟨before, after, heq⟩ := List.append_of_mem hp
    rw [operandWord_loc hhome]
    have hloc : locWord c.plan f' (cgPhiDstLoc { reg := r }) = f'.regs r := rfl
    rw [hloc, hopened.pointers before p after r heq hhome (hblock.pointer_apart heq hlive hhome)]
    rw [henv.allocas p hp] at hx
    obtain rfl := Option.some.inj hx
    exact alloca_repr hblock hp (by omega)

/-- The code of an alloca with a slot gives its address. -/
theorem yields_alloca {d : Cg} {i : Inst} {p : Local × Word} (hop : i.op = .alloca) (hslot : ((d.home? i.result).bind Home.valSlot).isSome = true)
    (hp : p ∈ c.st.frame.1) (hres : i.result = p.1) : Yields img host d f (cgCase src.fn c.st.info i) (f.regs regSp + p.2) := by
  intro n dst cg' _ hle _ hrun
  have hadd := runs_add (f := f.setReg cgRegScratch p.2) host c.code dst regSp cgRegScratch
  rw [Frame.setReg_same, Frame.setReg_of_ne _ _ (by decide)] at hadd
  have hruns := (runs_loadConst32 host c.code cgRegScratch p.2).append c.code hadd
  have hslot' : ((({ d with nextReg := n } : Cg).home? i.result).bind Home.valSlot).isSome = true := hslot
  have hfind : (c.st.info.allocas.find? fun q => q.1 = i.result) = some p := by
    rw [hres]
    exact hblock.find hp
  simp only [cgCase, hop, cgAllocaCase, Exec.run_bind, Exec.run_get, hslot', if_true, hfind] at hrun
  obtain ⟨c', hrun, heq⟩ := Exec.of_zoom hrun
  obtain rfl : cg' = c' := heq
  refine Exec.of_wp (Q := fun _ => Defines img host { d with nextReg := n } f dst (f.regs regSp + p.2)) (E := fun _ _ => True) ?_ hrun
  simp only [cgMoviScratch, Exec.wp_bind, wp_cgEmitLoadConst32, wp_cgEmit, Cg.emit_emit]
  exact .of_runs_scratch hle hruns

variable {pos sp : Nat} {cg : CgFn} (henv : ∀ p ∈ c.st.frame.1, env p.1 = some (BitVec.ofNat 32 sp + p.2).toNat)
include henv

/-- One alloca: it has its register from the prologue, or its code fills its slot. -/
theorem Entering.step (h : c.Entering e pos env sp f) (hat : c.At e pos cg) (hpos : pos < c.st.frame.1.length) :
    ∃ cg' f', c.At e (pos + 1) cg' ∧ Goes c.st.whole img host cg.code.length f cg'.code.length f' ∧ c.Entering e (pos + 1) env sp f' ∧
      ∀ q, ¬c.Private sp q → f'.heap.byte q = f.heap.byte q := by
  obtain ⟨p, hp⟩ : ∃ p, c.st.frame.1[pos]? = some p := ⟨_, List.getElem?_eq_getElem hpos⟩
  obtain ⟨i, hi, hop, hres, hinst, hty⟩ := hblock.inst hp
  have hmem : p ∈ c.st.frame.1 := List.mem_of_getElem? hp
  have hdrop : c.st.frame.1.drop pos = p :: c.st.frame.1.drop (pos + 1) := by
    obtain ⟨hlt, hget⟩ := List.getElem?_eq_some_iff.mp hp
    rw [List.drop_eq_getElem_cons hlt, hget]
  obtain ⟨cg', hrun, hat'⟩ := hat.turn_case hi (by rw [hop]; decide)
  obtain ⟨code, heq⟩ := ready_eq hat.front
  obtain ⟨home, hhome⟩ := c.homes.inst i hinst (by rw [hty]; decide)
  have hhome' : (ready cg).toCg.home? i.result = some home := by
    rw [heq]
    exact hhome
  rcases c.homes.plain _ home hhome with ⟨r, rfl, -⟩ | ⟨slot, rfl, -⟩
  · unfold cgWithResult at hrun
    rw [Exec.run_bind, Exec.run_get] at hrun
    simp only [hhome', cgCase, hop, cgAllocaCase, Exec.run_bind, Exec.run_get, Option.bind_some, Option.isSome_none, Bool.false_eq_true,
      if_false] at hrun
    obtain ⟨-, rfl⟩ := Outcome.val.inj hrun
    refine ⟨_, f, hat', Exec.Reaches.refl, ⟨fun l hlive hpending => h.values l hlive ?_, h.zero, h.sp_eq, h.size, h.fits⟩, fun _ _ => rfl⟩
    intro q hq hl
    rw [hdrop] at hq
    rcases List.mem_cons.mp hq with rfl | hq
    · exact ⟨r, by rw [hl, ← hres]; exact hhome⟩
    · exact hpending q hq hl
  · have hin : InFrame (ready cg).toCg img f := by
      rw [heq]
      exact ⟨h.size, by rw [h.sp_eq]; exact h.fits⟩
    have hyields : Yields img host (ready cg).toCg f (cgCase src.fn c.st.info i) (f.regs regSp + p.2) :=
      yields_alloca hblock hop (by rw [hhome']; rfl) hmem hres
    obtain ⟨-, f', hem, hag⟩ := computes_of_cgWithResult host c.code (ready_ok hat.front) hin rfl hhome' hyields hrun
    rw [heq] at hag
    have hgo := (between_of_emits (front_next hat.front (ready cg).nextReg) (emits_of_emitted hem) hat'.later).goes rfl hem
    refine ⟨_, f', hat', hgo, ⟨fun l hlive hpending => ?_, ?_, ?_, ?_, h.fits⟩, fun q hq => ?_⟩
    · have hsame : Function.update env i.result (env i.result) = env := Function.update_eq_self ..
      rw [← hsame]
      refine holdsWord_after c.plan_ok hhome hag ?_ ?_
      · intro n hn
        rw [hres, henv p hmem] at hn
        obtain rfl := Option.some.inj hn
        rw [hres]
        exact alloca_repr hblock hmem h.sp_eq
      · intro hne
        refine ⟨h.values l hlive fun q hq hl => ?_, c.apart_of_slot hhome hne⟩
        rw [hdrop] at hq
        rcases List.mem_cons.mp hq with rfl | hq
        · exact absurd (hl.trans hres.symm) hne
        · exact hpending q hq hl
    · rw [hag.regs _ (not_scratch_of_gt (Or.inl rfl))]
      exact h.zero
    · rw [hag.regs _ (not_scratch_of_gt (Or.inr rfl))]
      exact h.sp_eq
    · rw [hag.heap, ← h.size]
      rfl
    · exact (congrArg (fun heap : Mem => heap.byte q) hag.heap).trans (byte_setLoc h.sp_eq hhome hq)

/-- All allocas. -/
theorem Entering.run {d : Nat} (h : c.Entering e pos env sp f) (hat : c.At e pos cg) (hpos : pos + d = c.st.frame.1.length) :
    ∃ cg' f', c.At e c.st.frame.1.length cg' ∧ Goes c.st.whole img host cg.code.length f cg'.code.length f' ∧
      c.Holds ⟨e.id, c.st.frame.1.length⟩ env sp f' ∧ ∀ q, ¬c.Private sp q → f'.heap.byte q = f.heap.byte q := by
  induction d generalizing pos cg f with
  | zero =>
    obtain rfl : pos = c.st.frame.1.length := hpos
    refine ⟨cg, f, hat, Exec.Reaches.refl, ⟨fun l hlive => h.values l hlive fun p hp => ?_, h.zero, h.sp_eq, h.size, h.fits⟩, fun _ _ => rfl⟩
    rw [List.drop_length] at hp
    exact absurd hp List.not_mem_nil
  | succ d ih =>
    obtain ⟨cg₁, f₁, hat₁, hgo₁, h₁, hbytes₁⟩ := Entering.step hblock henv h hat (by omega)
    obtain ⟨cg₂, f₂, hat₂, hgo₂, hholds, hbytes₂⟩ := ih h₁ hat₁ (by omega)
    exact ⟨cg₂, f₂, hat₂, hgo₁.trans hgo₂, hholds, fun q hq => (hbytes₂ q hq).trans (hbytes₁ q hq)⟩

end entering

end Compiled

end CronoVM
