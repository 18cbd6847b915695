import CronoVM.Lemmas.Bounds
import CronoVM.Theorems.Builds
import CronoVM.Theorems.Load

/-!
# The interpreter is memory safe

On an image the loader accepted, with handlers that write only inside the heap, no run of the interpreter makes a raw access out of
bounds: not of the code, guest memory, the function table, the import table or the register file.
-/

namespace CronoVM

open Checked Vm BoundsAux

namespace SafetyAux

variable {κ W : Type} {img : Image κ} {m₀ : Mem}

/-- An accepted file makes a well-formed image. -/
theorem wf_of_load {A : Type} {al : Allocator A} {base : List Byte} {s t : LoadState A}
    (h : cvmLoadEx al base s = .val img t) : img.Wf := by
  obtain ⟨hk, hfuncs, himg⟩ := imageOf_of_load h
  have hmem : img.memSize.toNat = fileMemTotal base := by
    rw [himg.memSize, BitVec.toNat_ofNat, Nat.mod_eq_of_lt (Nat.lt_succ_of_le hk.mem_le)]
  have htable : img.funcTable = if fileSize base .funcs > 0 then
      wordsAt base (fileOff base .funcs).toNat (fileSize base .funcs / 4).toNat else [] := by
    rw [Image.funcTable, himg.funcOffsets]
    split <;> rfl
  constructor
  case code_length => rw [himg.code, himg.codeCount, wordsAt, List.length_map, List.length_range]
  case heap_size => rw [himg.memory.size, hmem]
  case funcs_length =>
    rw [htable, himg.funcCount]
    split
    · rw [wordsAt, List.length_map, List.length_range]
    · next hz =>
      have h0 : (fileSize base .funcs).toNat = 0 := by simpa [BitVec.lt_def] using hz
      rw [BitVec.toNat_udiv, h0]
      rfl
  case imports_length => rw [himg.importFns, himg.importCount]
  case entry_lt =>
    rw [himg.entry, himg.codeCount]
    exact hk.entry
  case func_lt =>
    intro off hoff
    rw [htable] at hoff
    rw [himg.codeCount]
    split at hoff
    · obtain ⟨i, hi, rfl⟩ := List.mem_map.mp hoff
      exact hfuncs i (List.mem_range.mp hi)
    · exact absurd hoff List.not_mem_nil
  case stack_le =>
    rw [BitVec.le_def, hmem, himg.stackSize]
    exact Nat.le_add_left _ _

/-- The invariant of a frame. -/
def FrameOk (img : Image κ) (m₀ : Mem) (f : Frame κ W) : Prop := Within img m₀ f.heap f.importFns

/-- One instruction: it is fetched inside the code, makes its accesses in bounds, and keeps the invariant. -/
theorem step_ok {host : Host κ W} (hhost : host.WritesInside) (himg : img.Wf) (h₀ : m₀.size = img.memSize.toNat)
    (f : Frame κ W) (hf : FrameOk img m₀ f) :
    Exec.wp (Switch.step img host) (fun _ g => FrameOk img m₀ g ∧ f.pc < img.codeCount)
      (fun e g => FrameOk img m₀ g ∧ (f.pc < img.codeCount ∨ e = ⟨.badPc, none⟩)) f := by
  simp only [Switch.step, Exec.wp_bind, wp_getPc, wp_failIf, wp_codeAt, wp_setPc, himg.code_length]
  refine ⟨fun _ => ⟨hf, Or.inr trivial⟩, fun hpc => ?_⟩
  have hpc : f.pc < img.codeCount := BitVec.not_le.mp hpc
  refine ⟨hpc, ?_⟩
  cases Opcode.ofByte? (instOp (img.code.getD f.pc.toNat 0)) with
  | none => exact ⟨hf, Or.inl hpc⟩
  | some op =>
    refine Exec.wp_mono (fun _ _ hg => ⟨hg, hpc⟩) (fun _ _ hg => ⟨hg, Or.inl hpc⟩) ?_
    exact cases_within hhost himg h₀ _ _ _ _ { f with pc := f.pc + 1 } hf op

/-- The entry of `cvm_exec_at` writes the sentinel inside memory. -/
theorem enter_ok (himg : img.Wf) (h₀ : m₀.size = img.memSize.toNat) (startPc : Word) (args : List Word) (f : Frame κ W)
    (hf : FrameOk img m₀ f) :
    Exec.wp (enter img startPc args) (fun _ g => FrameOk img m₀ g) (fun _ g => FrameOk img m₀ g) f := by
  have hs : f.heap.size = img.memSize.toNat := Within.size hf h₀
  simp only [enter, Exec.wp_bind, wp_failIf, Exec.wp_demand, Exec.wp_modify, Exec.wp_ite, store32, wp_writeAt, wp_setReg, hs]
  refine ⟨fun _ => hf, fun _ => ⟨fun _ => hf, fun _ => ⟨fun _ => hf, fun hargs => ⟨Nat.le_of_not_lt hargs, fun hstack => ?_,
    fun _ => hf⟩⟩⟩⟩
  have h4 : 4 ≤ img.memSize.toNat := Nat.le_trans (BitVec.le_def.mp hstack) (BitVec.le_def.mp himg.stack_le)
  have hsub : (img.memSize - 4).toNat = img.memSize.toNat - 4 := BitVec.toNat_sub_of_le (BitVec.le_def.mpr h4)
  exact ⟨by omega, Within.setWord hf h₀ _ (by omega)⟩

/-- The start pc of an entry point is found without a bad access. -/
theorem startPc_ok (himg : img.Wf) (start : Start) (f : Frame κ W) (hf : FrameOk img m₀ f) :
    Exec.wp (start.pc img) (fun _ g => FrameOk img m₀ g) (fun _ g => FrameOk img m₀ g) f := by
  cases start with
  | runArgs => exact hf
  | call fnIndex =>
    simp only [Start.pc, callEntry, Exec.wp_bind, wp_failIf, wp_funcOffset, himg.funcs_length]
    exact ⟨fun _ => hf, fun _ => ⟨fun _ => hf, fun _ => ⟨fun _ => hf, fun h => ⟨toNat_lt_of_not_ge h, hf⟩⟩⟩⟩

/-- A run keeps the invariant and makes no access out of bounds. -/
theorem run_ok {host : Host κ W} (hhost : host.WritesInside) (himg : img.Wf) (h₀ : m₀.size = img.memSize.toNat)
    (start : Start) (args : List Word) (n : Nat) (f : Frame κ W) (hf : FrameOk img m₀ f) :
    Exec.wp (start.run .switch img host args n) (fun _ g => FrameOk img m₀ g) (fun _ g => FrameOk img m₀ g) f := by
  rw [Start.run, Exec.wp_bind]
  refine Exec.wp_mono (fun startPc g hg => ?_) (fun _ _ h => h) (startPc_ok himg start f hf)
  rw [cvmExecAt, Exec.wp_bind]
  refine Exec.wp_mono (fun _ g hg => ?_) (fun _ _ h => h) (enter_ok himg h₀ startPc args g hg)
  exact Exec.iterate_invariant (fun s hs => Exec.wp_mono (fun _ _ h => h.1) (fun _ _ h => h.1) (step_ok hhost himg h₀ s hs)) n g hg

/-- Past the end of the code nothing is fetched. -/
theorem step_of_pc_ge {host : Host κ W} {f : Frame κ W} (h : ¬f.pc < img.codeCount) :
    Switch.step img host f = .stop ⟨.badPc, none⟩ f := by
  simp [Switch.step, getPc, failIf, BitVec.not_lt.mp h]

/-- Both builds take the steps of the switch. -/
theorem build_step (build : Build) (host : Host κ W) : build.step img host = Switch.step img host := by
  cases build with
  | threaded => exact BuildsAux.step_eq img host
  | switch => rfl

/-- The two builds of the interpreter run alike. -/
theorem build_run (build : Build) (host : Host κ W) (start : Start) (args : List Word) (n : Nat) :
    start.run build img host args n = start.run .switch img host args n := by
  simp only [Start.run, cvmExecAt, build_step]

end SafetyAux

open SafetyAux

/-- For every accepted file and every host whose handlers write only inside the heap: a run from either entry point, with any
arguments, any contents of the heap and any bindings of the imports, never makes a raw access out of bounds. Every state it reaches
has changed no byte outside the heap, and from it the next instruction is fetched inside the code (or the run ends with
`CVM_E_BAD_PC`) and either completes or ends the run with a result code. -/
theorem interpreter_memory_safe {κ W A : Type} (al : Allocator A) (base : List Byte) (world : A) (img : Image κ)
    (t : LoadState A) (hload : cvmLoadEx al base (LoadState.start world) = .val img t) (host : Host κ W)
    (hhost : host.WritesInside) (build : Build) (start : Start) (args : List Word) (f : Frame κ W)
    (hheap : f.heap.size = img.heap.size) (himports : f.importFns.length = img.importFns.length) (n : Nat) :
    start.run build img host args n f ≠ .oob ∧
    ∀ g, start.run build img host args n f = .val () g →
      f.heap.SameOutside g.heap ∧
      (g.pc < img.codeCount ∨ build.step img host g = .stop ⟨.badPc, none⟩ g) ∧
      ((∃ g', build.step img host g = .val () g') ∨ ∃ e g', build.step img host g = .stop e g') := by
  have himg : img.Wf := wf_of_load hload
  have h₀ : f.heap.size = img.memSize.toNat := hheap.trans himg.heap_size
  have hf : FrameOk img f.heap f := ⟨f.heap.sameOutside_refl, himports.trans himg.imports_length⟩
  have hrun := run_ok hhost himg h₀ start args n f hf
  rw [build_run, build_step]
  unfold Exec.wp at hrun
  refine ⟨fun hoob => by rw [hoob] at hrun; exact hrun, fun g hg => ?_⟩
  rw [hg] at hrun
  have hstep := step_ok hhost himg h₀ g hrun
  refine ⟨hrun.heap, ?_, ?_⟩
  · by_cases hpc : g.pc < img.codeCount
    · exact Or.inl hpc
    · exact Or.inr (step_of_pc_ge hpc)
  · unfold Exec.wp at hstep
    cases hout : Switch.step img host g with
    | val u g' => exact Or.inl ⟨g', rfl⟩
    | stop e g' => exact Or.inr ⟨e, g', rfl⟩
    | oob => rw [hout] at hstep; exact hstep.elim

/-! ## A run -/

/-- A host without handlers of its own, floats that are all zero, and `memmove` for `memcpy`. -/
def quietHost : Host Unit Unit where
  call _ v := (v, 0)
  float :=
    { fadd := fun _ _ => 0, fsub := fun _ _ => 0, fmul := fun _ _ => 0, fdiv := fun _ _ => 0, feq := fun _ _ => true,
      fne := fun _ _ => false, flt := fun _ _ => false, fle := fun _ _ => true, fge := fun _ _ => true, sqrtf := fun _ => 0,
      floorf := fun _ => 0, ceilf := fun _ => 0, truncf := fun _ => 0, toI32 := fun _ => 0, toU32 := fun _ => 0,
      ofI32 := fun _ => 0, ofU32 := fun _ => 0 }
  memcpy :=
    { copy := Mem.move
      size_eq := fun _ _ _ _ => rfl
      frame := fun m _ _ _ _ h => h.elim (fun h => m.blit_byte_of_lt _ h) (fun h => m.blit_byte_of_ge _ h)
      disjoint := fun _ _ _ _ _ => rfl }

/-- A host without handlers writes nothing. -/
theorem quietHost_writesInside : quietHost.WritesInside := ⟨fun _ v => v.heap.sameOutside_refl, fun _ _ => rfl⟩

/-- An image with nothing but code, whose memory is 64 bytes of stack. -/
def codeImage (code : List Word) : Image Unit where
  code := code
  codeCount := BitVec.ofNat 32 code.length
  heap := { size := 64, byte := fun _ => 0 }
  heapSize := 0
  dataSize := 0
  reserveSize := 0
  stackSize := 64
  memSize := 64
  regions := []
  regionCount := 0
  romOffset := 0
  romSize := 0
  entry := 0
  funcOffsets := none
  funcCount := 0
  importCount := 0
  importNames := []
  importFns := []
  importBlob := []

theorem interpreter_memory_safe_sampleFile : ∃ (img : Image Unit) (t : LoadState Nat) (f : Frame Unit Unit),
    cvmLoadEx bumpAllocator sampleFile (LoadState.start 0) = .val img t ∧
    Start.run (.call 1) .threaded img quietHost [7] 3 f ≠ .oob := by
  obtain ⟨img, t, h⟩ := sampleFile_loads
  let f : Frame Unit Unit := { regs := fun _ => 0, heap := img.heap, importFns := img.importFns, world := (), pc := 0 }
  exact ⟨img, t, f, h, (interpreter_memory_safe bumpAllocator sampleFile 0 img t h quietHost quietHost_writesInside .threaded
    (.call 1) [7] f rfl rfl 3).1⟩

end CronoVM
