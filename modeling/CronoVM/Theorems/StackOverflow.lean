import CronoVM.Lemmas.Calls
import CronoVM.Theorems.Roundtrip

/-!
# Calls and the stack slice

The stack slice is the end of memory, from `heap_size` on. The check of a call compares SP with the start of memory: a call that finds SP
at the start of the slice, or below it, pushes its return pc into what lies there.
-/

namespace CronoVM

open Checked Vm

variable {κ W : Type}

/-- A call of function number `fid` that ends so has trapped, with the code of a stack overflow if there is such a function, or has written
its return pc inside the stack slice and nothing else. -/
def CallInStack (img : Image κ) (fid : Word) (f : Frame κ W) (o : Outcome (Frame κ W) Halt Unit) : Prop :=
  (∃ g, o = .stop ⟨callTrap img fid, none⟩ g) ∨
  ∃ g, o = .val () g ∧ g.heap = f.heap.setWord (g.regs regSp).toNat (f.pc + 1) ∧
    img.heapSize.toNat ≤ (g.regs regSp).toNat ∧ (g.regs regSp).toNat + 4 ≤ img.memSize.toNat

/-- The call passes its checks with an SP that leaves no room for a word above the start of the slice. -/
def CallBelowStack (img : Image κ) (fid : Word) (f : Frame κ W) : Prop :=
  CallTaken img fid f ∧ (f.regs regSp).toNat < img.heapSize.toNat + 4

/-- Memory below the stack slice: DATA, BSS, the regions, ROM and the heap reserve. -/
def belowStack (img : Image κ) : Area where
  regs _ := False
  bytes i := i < img.heapSize.toNat

/-- The calls of a state stay in the stack slice, and what is no call writes nothing below it. -/
structure KeepsBelow (img : Image κ) (host : Host κ W) (f : Frame κ W) : Prop where
  calls : ∀ fid, NextCall img f fid → ¬CallBelowStack img fid f
  others : (∀ fid, ¬NextCall img f fid) → SparesNext img host (belowStack img) f

namespace StackAux

open CallsAux SafetyAux

variable {build : Build} {img : Image κ} {host : Host κ W} {f g : Frame κ W} {fid : Word}

/-- SP after a push, where it does not wrap. -/
theorem toNat_sp_sub {sp : Word} (h : 4 ≤ sp) : (sp - 4).toNat = sp.toNat - 4 := BitVec.toNat_sub_of_le h

/-- One call stays in the slice exactly when SP leaves room for a word there, or a check fails. -/
theorem step_callInStack (himg : img.Wf) (hsize : f.heap.size = img.memSize.toNat) (hcall : NextCall img f fid) :
    CallInStack img fid f (build.step img host f) ↔ ¬CallBelowStack img fid f := by
  rw [step_nextCall himg hcall]
  by_cases htaken : CallTaken img fid f
  · have hrun := callTo_of_taken (f := { f with pc := f.pc + 1 }) himg hsize ⟨htaken.fid_ne, htaken.fid_lt, htaken.sp_ge, htaken.sp_le⟩
    have hsub := toNat_sp_sub htaken.sp_ge
    have hge := BitVec.le_def.mp htaken.sp_ge
    have hle := BitVec.le_def.mp htaken.sp_le
    have h4 : (4 : Word).toNat = 4 := rfl
    have hsp : ((afterCall img fid { f with pc := f.pc + 1 }).regs regSp).toNat = (f.regs regSp).toNat - 4 := by
      rw [afterCall_sp, ← hsub]
    rw [hrun]
    constructor
    · rintro (⟨g, hstop⟩ | ⟨g, hval, -, hin, -⟩) hbelow
      · nomatch hstop
      · cases hval
        have hlow := hbelow.2
        omega
    · intro hno
      have hroom : img.heapSize.toNat + 4 ≤ (f.regs regSp).toNat := Nat.le_of_not_lt fun hlow => hno ⟨htaken, hlow⟩
      refine Or.inr ⟨_, rfl, ?_, ?_, ?_⟩
      · rw [hsp, ← hsub]
        rfl
      · omega
      · omega
  · have hstop := callTo_of_not_taken (f := { f with pc := f.pc + 1 })
      fun h : CallTaken img fid { f with pc := f.pc + 1 } => htaken ⟨h.fid_ne, h.fid_lt, h.sp_ge, h.sp_le⟩
    exact ⟨fun _ hbelow => htaken hbelow.1, fun _ => Or.inl ⟨_, hstop⟩⟩

/-- A step that keeps to the conditions leaves what is below the slice as it is. -/
theorem step_keepsBelow (himg : img.Wf) (hsize : f.heap.size = img.memSize.toNat) (hkeeps : KeepsBelow img host f)
    (hstep : build.step img host f = .val () g) : (belowStack img).Same f.toHostView g.toHostView := by
  by_cases hcall : ∃ fid, NextCall img f fid
  · obtain ⟨fid, hcall⟩ := hcall
    have hin : CallInStack img fid f (build.step img host f) := (step_callInStack himg hsize hcall).mpr (hkeeps.calls fid hcall)
    rw [hstep] at hin
    rcases hin with ⟨t, hstop⟩ | ⟨t, hval, hheap, hlow, -⟩
    · nomatch hstop
    · cases hval
      refine ⟨fun r hr => hr.elim, fun i hi => ?_⟩
      rw [hheap]
      exact f.heap.blit_byte_of_lt _ (Nat.lt_of_lt_of_le hi hlow)
  · exact step_spares build (hkeeps.others fun fid h => hcall ⟨fid, h⟩) hstep

/-- The invariant of the run: memory has its size. -/
theorem size_of_reaches (himg : img.Wf) (hhost : host.WritesInside) {m₀ : Mem} (h₀ : m₀.size = img.memSize.toNat)
    (hf : FrameOk img m₀ f) (h : Exec.Reaches (build.step img host) f g) : g.heap.size = img.memSize.toNat := by
  have hinv : FrameOk img m₀ g := by
    rw [build_step] at h
    exact h.invariant (fun s hs => Exec.wp_mono (fun _ _ h => h.1) (fun _ _ h => h.1) (step_ok hhost himg h₀ s hs)) hf
  exact hinv.size h₀

/-- Either start gives a frame that the interpreter can run. -/
theorem frameOk_of_start (himg : img.Wf) (hhost : host.WritesInside) {start : Start} {args : List Word}
    (hsize : f.heap.size = img.memSize.toNat) (himports : f.importFns.length = img.importFns.length)
    (hstart : start.run build img host args 0 f = .val () g) : FrameOk img f.heap g := by
  have hf : FrameOk img f.heap f := ⟨f.heap.sameOutside_refl, himports.trans himg.imports_length⟩
  have hrun := run_ok hhost himg hsize start args 0 f hf
  rw [build_run] at hstart
  unfold Exec.wp at hrun
  rw [hstart] at hrun
  exact hrun

/-- The calls of a run from an entry point. -/
theorem call_of_reaches (himg : img.Wf) (hhost : host.WritesInside) (hf : FrameOk img f.heap f) (hsize : f.heap.size = img.memSize.toNat)
    (h : Exec.Reaches (build.step img host) f g) (hcall : NextCall img g fid) :
    CallInStack img fid g (build.step img host g) ↔ ¬CallBelowStack img fid g :=
  step_callInStack himg (size_of_reaches himg hhost hsize hf h) hcall

/-- A run that keeps to the conditions. -/
theorem run_keepsBelow (himg : img.Wf) (hhost : host.WritesInside) (hf : FrameOk img f.heap f) (hsize : f.heap.size = img.memSize.toNat)
    (h : Exec.ReachesVia (KeepsBelow img host) (build.step img host) f g) : (belowStack img).Same f.toHostView g.toHostView := by
  induction h with
  | refl => exact ⟨fun _ _ => rfl, fun _ _ => rfl⟩
  | step hreach hkeeps hstep ih =>
    exact ih.trans (step_keepsBelow himg (size_of_reaches himg hhost hsize hf hreach.reaches) hkeeps hstep)

end StackAux

open StackAux SafetyAux

/-- In every run of a loaded image, in every state it reaches with a call next: the call traps (with `CVM_E_STACK_OVERFLOW`, where its
number is that of a function) or writes its return pc inside the stack slice, unless it passes its checks with SP below the first word of
the slice. In every run whose calls are never made in such a state, and whose other instructions write nothing below the slice, all memory
below it is in the end what it was at the start, whatever the depth of the calls. -/
theorem calls_stay_in_stack {κ W A : Type} (al : Allocator A) (base : List Byte) (world : A) (img : Image κ) (t : LoadState A)
    (hload : cvmLoadEx al base (LoadState.start world) = .val img t) (host : Host κ W) (hhost : host.WritesInside) (build : Build)
    (start : Start) (args : List Word) (f f₀ : Frame κ W) (hheap : f.heap.size = img.heap.size)
    (himports : f.importFns.length = img.importFns.length) (hstart : start.run build img host args 0 f = .val () f₀) :
    (∀ g fid, Exec.Reaches (build.step img host) f₀ g → NextCall img g fid →
      (CallInStack img fid g (build.step img host g) ↔ ¬CallBelowStack img fid g)) ∧
    ∀ g, Exec.ReachesVia (KeepsBelow img host) (build.step img host) f₀ g → ∀ i < img.heapSize.toNat, g.heap.byte i = f₀.heap.byte i := by
  have himg : img.Wf := wf_of_load hload
  have hsize : f.heap.size = img.memSize.toNat := hheap.trans himg.heap_size
  have hok : FrameOk img f.heap f₀ := frameOk_of_start himg hhost hsize himports hstart
  have hsize₀ : f₀.heap.size = img.memSize.toNat := hok.size hsize
  have hok₀ : FrameOk img f₀.heap f₀ := ⟨f₀.heap.sameOutside_refl, hok.imports⟩
  constructor
  · intro g fid hreach hcall
    exact call_of_reaches himg hhost hok₀ hsize₀ hreach hcall
  · intro g hreach i hi
    exact (run_keepsBelow himg hhost hok₀ hsize₀ hreach).2 i hi

/-! ## A recursion that overwrites a global -/

/-- `void f(void) { f(); }` as the entry, eight bytes of DATA and 16 of stack. -/
def recursionSource : BinSource :=
  { code := [encI24 .call 2, encR .ret 0 0 0], data := [1, 2, 3, 4, 5, 6, 7, 8], heapReserve := 0, stackReserve := 16, imports := [],
    funcs := [0], emitFuncs := true, regions := [], rom := [], metadata := [], sealed := false, entry := 0 }

/-- The frame a run of it is started in. -/
def recursionStart (img : Image Unit) : Frame Unit Unit where
  regs _ := 0
  heap := img.heap
  importFns := img.importFns
  world := ()
  pc := 0

/-- A run of the file, `n` calls deep. -/
def recursionRun (n : Nat) : Outcome (Frame Unit Unit) Halt Unit :=
  match (cvmLoadEx bumpAllocator (writeBin recursionSource) (LoadState.start 0) : Outcome _ _ (Image Unit)) with
  | .val img _ => Start.run .runArgs .threaded img quietHost [] n (recursionStart img)
  | _ => .oob

theorem recursionSource_valid : recursionSource.Valid :=
  .of_bare rfl rfl (by decide) (by decide) (by simp [recursionSource]) (by decide) (by decide +kernel) (by decide)

theorem recursionSource_loads : ∃ (img : Image Unit) (t : LoadState Nat),
    cvmLoadEx bumpAllocator (writeBin recursionSource) (LoadState.start 0) = .val img t :=
  Outcome.exists_of_isVal (by decide +kernel)

/-- What the loader makes of the file. -/
structure RecursionImage (img : Image Unit) : Prop where
  wf : img.Wf
  code : img.code = recursionSource.code
  mem_size : img.memSize = 24
  data_size : img.dataSize = 8
  heap_size : img.heapSize = 8
  func_count : img.funcCount = 3
  table : img.funcTable.getD 2 0 = 0

/-- A state with the call next and `sp` bytes below SP. -/
structure RecursionAt (sp : Nat) (f : Frame Unit Unit) : Prop where
  pc : f.pc = 0
  sp_eq : (f.regs regSp).toNat = sp
  size : f.heap.size = 24

/-- The loader gives the image these fields. -/
theorem recursionImage_of_load {img : Image Unit} {t : LoadState Nat}
    (hload : cvmLoadEx bumpAllocator (writeBin recursionSource) (LoadState.start 0) = .val img t) : RecursionImage img := by
  have hof : ImageOf (writeBin recursionSource) img := (imageOf_of_load hload).2.2
  have hcarries := RoundtripAux.carries_of_imageOf recursionSource_valid hof
  refine ⟨SafetyAux.wf_of_load hload, hcarries.code, ?_, BitVec.eq_of_toNat_eq hcarries.data_size, ?_, ?_, ?_⟩
  · rw [hof.memSize, WrittenAux.fileMemTotal_writeBin recursionSource_valid]
    rfl
  · rw [hof.heapSize]
    decide +kernel
  · rw [hof.funcCount]
    decide +kernel
  · rw [List.getD_eq_getElem?_getD, hcarries.func_offset rfl 0 (by decide)]
    rfl

section recursion

variable {img : Image Unit} {f : Frame Unit Unit} {n : Nat}

/-- The next instruction calls the function again. -/
theorem nextCall_recursion (himg : RecursionImage img) (h : RecursionAt n f) : NextCall img f 2 := by
  refine ⟨encI24 .call 2, Or.inl ⟨?_, ?_⟩⟩
  · rw [NextIs, himg.code, h.pc]
    exact ⟨rfl, rfl⟩
  · rfl

/-- The call passes the checks. -/
theorem callTaken_recursion (himg : RecursionImage img) (h : RecursionAt (n + 4) f) (hn : n + 4 ≤ 24) : CallTaken img 2 f := by
  have h4 : (4 : Word).toNat = 4 := rfl
  have h24 : (24 : Word).toNat = 24 := rfl
  refine ⟨by decide, ?_, ?_, ?_⟩
  · rw [himg.func_count]
    decide
  · rw [BitVec.le_def, h.sp_eq]
    omega
  · rw [himg.mem_size, BitVec.le_def, h.sp_eq]
    omega

/-- One call: SP goes down by a word. -/
theorem step_recursion (himg : RecursionImage img) (h : RecursionAt (n + 4) f) (hn : n + 4 ≤ 24) :
    Build.step .threaded img quietHost f = .val () (afterCall img 2 { f with pc := f.pc + 1 }) ∧
      RecursionAt n (afterCall img 2 { f with pc := f.pc + 1 }) := by
  have htaken := callTaken_recursion himg h hn
  have hsize : f.heap.size = img.memSize.toNat := by
    rw [h.size, himg.mem_size]
    rfl
  constructor
  · rw [CallsAux.step_nextCall himg.wf (nextCall_recursion himg h)]
    exact CallsAux.callTo_of_taken (f := { f with pc := f.pc + 1 }) himg.wf hsize ⟨htaken.fid_ne, htaken.fid_lt, htaken.sp_ge, htaken.sp_le⟩
  · refine ⟨himg.table, ?_, h.size⟩
    rw [afterCall_sp, StackAux.toNat_sp_sub htaken.sp_ge, h.sp_eq]
    rfl

/-- Down to the third word of the slice the calls stay in it. -/
theorem keepsBelow_recursion (himg : RecursionImage img) (h : RecursionAt n f) (hn : 12 ≤ n) : KeepsBelow img quietHost f := by
  refine ⟨fun fid _ hbelow => ?_, fun hno => absurd (nextCall_recursion himg h) (hno 2)⟩
  have hlow := hbelow.2
  have h8 : (8 : Word).toNat = 8 := rfl
  rw [h.sp_eq, himg.heap_size] at hlow
  omega

end recursion

/-- The fourth call finds SP at the start of the slice and writes its return pc over the second word of DATA. -/
theorem recursion_overwrites_data : ∃ (img : Image Unit) (t : LoadState Nat) (f g : Frame Unit Unit),
    cvmLoadEx bumpAllocator (writeBin recursionSource) (LoadState.start 0) = .val img t ∧
    Start.run .runArgs .threaded img quietHost [] 3 (recursionStart img) = .val () f ∧ NextCall img f 2 ∧
    Build.step .threaded img quietHost f = .val () g ∧ ¬CallInStack img 2 f (.val () g) ∧
    img.dataSize = 8 ∧ f.heap.word 4 = 0x08070605 ∧ g.heap.word 4 = 1 := by
  obtain ⟨img, t, hload⟩ := recursionSource_loads
  have hrun : ((recursionRun 3).holds fun _ f => f.pc == 0 && f.regs regSp == 8 && f.heap.size == 24 && f.heap.word 4 == 0x08070605) =
      true := by decide +kernel
  unfold recursionRun at hrun
  rw [hload] at hrun
  obtain ⟨_, f, hf, hstate⟩ := Outcome.exists_of_holds hrun
  simp only [Bool.and_eq_true, beq_iff_eq] at hstate
  obtain ⟨⟨⟨hpc, hsp⟩, hheap⟩, hword⟩ := hstate
  have himg := recursionImage_of_load hload
  have hat : RecursionAt (4 + 4) f := ⟨hpc, by rw [hsp]; rfl, hheap⟩
  have hcall := nextCall_recursion himg hat
  have hsize : f.heap.size = img.memSize.toNat := by
    rw [hheap, himg.mem_size]
    rfl
  have hbelow : CallBelowStack img 2 f := by
    refine ⟨callTaken_recursion himg hat (by decide), ?_⟩
    rw [hsp, himg.heap_size]
    decide
  have hstep := (step_recursion himg hat (by decide)).1
  refine ⟨img, t, f, _, hload, hf, hcall, hstep, ?_, himg.data_size, hword, ?_⟩
  · rw [← hstep, step_callInStack himg.wf hsize hcall]
    exact not_not.mpr hbelow
  · have haddr : (f.regs regSp - 4).toNat = 4 := by
      rw [hsp]
      rfl
    simp only [afterCall, haddr, Mem.word_setWord, hpc]
    rfl

/-- Three calls deep SP stands at the start of the slice, and the eight bytes of DATA are what they were. -/
theorem calls_stay_in_stack_recursion : ∃ (img : Image Unit) (t : LoadState Nat) (f₀ g : Frame Unit Unit),
    cvmLoadEx bumpAllocator (writeBin recursionSource) (LoadState.start 0) = .val img t ∧
    Start.run .runArgs .threaded img quietHost [] 0 (recursionStart img) = .val () f₀ ∧
    Exec.Reaches (Build.step .threaded img quietHost) f₀ g ∧ g.regs regSp = img.heapSize ∧
    CallInStack img 2 f₀ (Build.step .threaded img quietHost f₀) ∧ ¬CallInStack img 2 g (Build.step .threaded img quietHost g) ∧
    ∀ i < 8, g.heap.byte i = f₀.heap.byte i := by
  obtain ⟨img, t, hload⟩ := recursionSource_loads
  have hrun : ((recursionRun 0).holds fun _ f => f.pc == 0 && f.regs regSp == 20 && f.heap.size == 24) = true := by decide +kernel
  unfold recursionRun at hrun
  rw [hload] at hrun
  obtain ⟨_, f₀, hf₀, hstate⟩ := Outcome.exists_of_holds hrun
  simp only [Bool.and_eq_true, beq_iff_eq] at hstate
  obtain ⟨⟨hpc, hsp⟩, hheap⟩ := hstate
  have himg := recursionImage_of_load hload
  have h₀ : RecursionAt 20 f₀ := ⟨hpc, by rw [hsp]; rfl, hheap⟩
  obtain ⟨hstep₀, h₁⟩ := step_recursion himg (n := 16) h₀ (by decide)
  obtain ⟨hstep₁, h₂⟩ := step_recursion himg (n := 12) h₁ (by decide)
  obtain ⟨hstep₂, h₃⟩ := step_recursion himg (n := 8) h₂ (by decide)
  have hvia := (((Exec.ReachesVia.refl (P := KeepsBelow img quietHost)).step (keepsBelow_recursion himg h₀ (by decide)) hstep₀).step
    (keepsBelow_recursion himg h₁ (by decide)) hstep₁).step (keepsBelow_recursion himg h₂ (by decide)) hstep₂
  have hspg := BitVec.eq_of_toNat_eq (x := (_ : Word)) (y := 8) h₃.sp_eq
  obtain ⟨hcalls, hkeeps⟩ := calls_stay_in_stack bumpAllocator (writeBin recursionSource) 0 img t hload quietHost quietHost_writesInside
    .threaded .runArgs [] (recursionStart img) f₀ rfl rfl hf₀
  have height : img.heapSize.toNat = 8 := by
    rw [himg.heap_size]
    rfl
  refine ⟨img, t, f₀, _, hload, hf₀, hvia.reaches, hspg.trans himg.heap_size.symm, ?_, ?_, fun i hi => hkeeps _ hvia i (height ▸ hi)⟩
  · refine (hcalls f₀ 2 .refl (nextCall_recursion himg h₀)).mpr fun hbelow => ?_
    have hlow := hbelow.2
    rw [h₀.sp_eq, height] at hlow
    omega
  · rw [hcalls _ 2 hvia.reaches (nextCall_recursion himg h₃), not_not]
    refine ⟨callTaken_recursion himg (n := 4) h₃ (by decide), ?_⟩
    rw [h₃.sp_eq, height]
    decide

end CronoVM
