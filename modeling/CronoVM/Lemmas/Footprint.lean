import CronoVM.Theorems.Builds

/-!
# Footprints

What an instruction may write: the registers and the bytes of memory. Everything else is as it was, over one step and over every run
whose steps write nothing of it.
-/

namespace CronoVM

open Checked Vm

variable {κ W : Type}

/-! ## Liberal preconditions of the accesses -/

namespace Vm

section wlp

variable {Q : Word → Frame κ W → Prop} {U : Unit → Frame κ W → Prop} {f : Frame κ W}

/-- After a check its condition is false. -/
theorem wlp_failIf (c : Prop) [Decidable c] (e : CvmResult) : Exec.wlp (failIf c e) U f ↔ (¬c → U () f) := Exec.wlp_stopIf c _

theorem wlp_regAt (i : Nat) : Exec.wlp (regAt i) Q f ↔ (i < regCount → Q (f.regs (BitVec.ofNat 8 i)) f) := by simp [regAt]

theorem wlp_setRegAt (i : Nat) (v : Word) : Exec.wlp (setRegAt i v) U f ↔
    (i < regCount → U () { f with regs := Function.update f.regs (BitVec.ofNat 8 i) v }) := by
  simp [setRegAt]

theorem wlp_reg (a : Byte) : Exec.wlp (reg a) Q f ↔ Q (f.regs a) f := by simp [reg, wlp_regAt, toNat_lt_regCount]

theorem wlp_setReg (a : Byte) (v : Word) :
    Exec.wlp (setReg a v) U f ↔ U () { f with regs := Function.update f.regs a v } := by
  simp [setReg, wlp_setRegAt, toNat_lt_regCount]

theorem wlp_getPc : Exec.wlp getPc Q f ↔ Q f.pc f := by simp [getPc]

theorem wlp_setPc (pc : Word) : Exec.wlp (setPc pc) U f ↔ U () { f with pc := pc } := by simp [setPc]

theorem wlp_codeAt (img : Image κ) (pc : Word) :
    Exec.wlp (codeAt img pc) Q f ↔ (pc.toNat < img.code.length → Q (img.code.getD pc.toNat 0) f) := by
  simp [codeAt]

theorem wlp_funcOffset (img : Image κ) (i : Word) :
    Exec.wlp (funcOffset img i) Q f ↔ (i.toNat < img.funcTable.length → Q (img.funcTable.getD i.toNat 0) f) := by
  simp [funcOffset]

theorem wlp_importFn {P : Option (SyscallFn κ) → Frame κ W → Prop} (i : Word) :
    Exec.wlp (importFn i) P f ↔ (i.toNat < f.importFns.length → P (f.importFns.getD i.toNat none) f) := by
  simp [importFn]

theorem wlp_load8 {P : Byte → Frame κ W → Prop} (p : Nat) :
    Exec.wlp (load8 p) P f ↔ (p < f.heap.size → P (f.heap.byte p) f) := by
  simp [load8]

theorem wlp_load16 {P : BitVec 16 → Frame κ W → Prop} (p : Nat) :
    Exec.wlp (load16 p) P f ↔ (p + 2 ≤ f.heap.size → P (f.heap.half p) f) := by
  simp [load16]

theorem wlp_load32 (p : Nat) : Exec.wlp (load32 p) Q f ↔ (p + 4 ≤ f.heap.size → Q (f.heap.word p) f) := by simp [load32]

theorem wlp_writeAt (p n : Nat) (write : Mem → Mem) :
    Exec.wlp (writeAt p n write) U f ↔ (p + n ≤ f.heap.size → U () { f with heap := write f.heap }) := by
  simp [writeAt]

theorem wlp_memmove (dst src n : Nat) : Exec.wlp (memmove dst src n) U f ↔
    (src + n ≤ f.heap.size → dst + n ≤ f.heap.size → U () { f with heap := f.heap.move dst src n }) := by
  simp [memmove, wlp_writeAt]

theorem wlp_memcpy (host : Host κ W) (dst src n : Nat) : Exec.wlp (memcpy host dst src n) U f ↔
    (src + n ≤ f.heap.size → dst + n ≤ f.heap.size → U () { f with heap := host.memcpy.copy f.heap dst src n }) := by
  simp [memcpy, wlp_writeAt]

/-- A call of a host function replaces what the host sees. -/
theorem wlp_callFn (host : Host κ W) (fn : SyscallFn κ) : Exec.wlp (callFn host fn) Q f ↔
    Q (host.call fn f.toHostView).2 { f with toHostView := (host.call fn f.toHostView).1 } := by
  simp [callFn]

end wlp

end Vm

/-! ## What an instruction writes -/

/-- The registers an instruction writes; a syscall writes what its handler does. -/
def regsWritten (f : Frame κ W) (a b : Byte) : Opcode → List Byte
  | .halt | .stw | .stb | .sth | .jmp | .beq | .bne | .jmpr | .memcpy | .memset | .memmove | .syscall => []
  | .call | .callr | .ret => [regSp]
  | .longjmp => [BitVec.ofNat 8 (f.heap.word ((f.regs a).toNat + 8)).toNat, regSp]
  | .coroSwap => [BitVec.ofNat 8 (f.heap.word ((f.regs b).toNat + 8)).toNat, regSp]
  | _ => [a]

/-- The ranges of memory an instruction writes, by their start and length. -/
def rangesWritten (f : Frame κ W) (a b c : Byte) : Opcode → List (Nat × Nat)
  | .stw => [((f.regs b).toNat, 4)]
  | .stb => [((f.regs b).toNat, 1)]
  | .sth => [((f.regs b).toNat, 2)]
  | .call | .callr => [((f.regs regSp - 4).toNat, 4)]
  | .memcpy | .memset | .memmove => [((f.regs a).toNat, (f.regs c).toNat)]
  | .setjmp => [((f.regs b).toNat, 12)]
  | .coroSwap => [((f.regs a).toNat, 16), ((f.regs b).toNat + 12, 4)]
  | _ => []

/-- A byte lies in one of the ranges. -/
def InRanges (ranges : List (Nat × Nat)) (i : Nat) : Prop := ∃ p ∈ ranges, p.1 ≤ i ∧ i < p.1 + p.2

/-- A part of the state of the machine. -/
structure Area where
  regs : Byte → Prop
  bytes : Nat → Prop

/-- The area is the same in both. -/
def Area.Same (A : Area) (f g : HostView κ W) : Prop := (∀ r, A.regs r → g.regs r = f.regs r) ∧ ∀ i, A.bytes i → g.heap.byte i = f.heap.byte i

/-- Two steps that touch only the area touch only the area. -/
theorem Area.Same.trans {A : Area} {f g h : HostView κ W} (hfg : A.Same f g) (hgh : A.Same g h) : A.Same f h :=
  ⟨fun r hr => (hgh.1 r hr).trans (hfg.1 r hr), fun i hi => (hgh.2 i hi).trans (hfg.2 i hi)⟩

/-- The next instruction. -/
def NextIs (img : Image κ) (f : Frame κ W) (op : Opcode) (w : Word) : Prop := img.code.getD f.pc.toNat 0 = w ∧ instOp w = op.code

/-- The instruction writes nothing of the area. -/
def SparesOp (host : Host κ W) (A : Area) (f : Frame κ W) (inst : Word) (op : Opcode) : Prop :=
  (∀ r ∈ regsWritten f (instA inst) (instB inst) op, ¬A.regs r) ∧
  (∀ i, InRanges (rangesWritten f (instA inst) (instB inst) (instC inst) op) i → ¬A.bytes i) ∧
  (op = .syscall → ∀ fn, f.importFns.getD ((instImm16 inst).setWidth 32 : Word).toNat none = some fn → A.Same f.toHostView (host.call fn f.toHostView).1)

/-- The next instruction writes nothing of the area. -/
def SparesNext (img : Image κ) (host : Host κ W) (A : Area) (f : Frame κ W) : Prop :=
  ∀ op, Opcode.ofByte? (instOp (img.code.getD f.pc.toNat 0)) = some op → SparesOp host A f (img.code.getD f.pc.toNat 0) op

section spares

variable {img : Image κ} {host : Host κ W} {A : Area} {f g : Frame κ W} {inst : Word} {op : Opcode}

/-- A write to a register of the area. -/
theorem Area.Same.update {v : HostView κ W} {r : Byte} (x : Word) (hr : ¬A.regs r) (h : A.Same f.toHostView v) :
    A.Same f.toHostView { v with regs := Function.update v.regs r x } := by
  refine ⟨fun r' hr' => ?_, h.2⟩
  have hne : r' ≠ r := fun he => hr (he ▸ hr')
  exact (Function.update_of_ne hne x v.regs).trans (h.1 r' hr')

/-- Memory is written in a range none of whose bytes are of the area. -/
theorem Area.Same.write {v : HostView κ W} {heap : Mem} {p n : Nat} (hout : ∀ i, i < p ∨ p + n ≤ i → heap.byte i = v.heap.byte i)
    (hb : ∀ i, p ≤ i ∧ i < p + n → ¬A.bytes i) (h : A.Same f.toHostView v) : A.Same f.toHostView { v with heap := heap } := by
  refine ⟨h.1, fun i hi => ?_⟩
  have hnot : ¬(p ≤ i ∧ i < p + n) := fun hin => hb i hin hi
  exact (hout i (by omega)).trans (h.2 i hi)

/-- A write to bytes of the area. -/
theorem Area.Same.blit {v : HostView κ W} {p n : Nat} (b : Nat → Byte) (hb : ∀ i, p ≤ i ∧ i < p + n → ¬A.bytes i)
    (h : A.Same f.toHostView v) : A.Same f.toHostView { v with heap := v.heap.blit p n b } := by
  refine h.write (fun i hi => ?_) hb
  rcases hi with hi | hi
  · exact v.heap.blit_byte_of_lt b hi
  · exact v.heap.blit_byte_of_ge b hi

/-- A range that avoids the area avoids it byte by byte. -/
theorem not_bytes_of_mem {ranges : List (Nat × Nat)} {p n : Nat} (hbytes : ∀ i, InRanges ranges i → ¬A.bytes i) (hp : (p, n) ∈ ranges) :
    ∀ i, p ≤ i ∧ i < p + n → ¬A.bytes i :=
  fun i hi => hbytes i ⟨(p, n), hp, hi⟩

/-- An instruction that writes nothing of the area leaves it as it is. -/
theorem cases_spares (h : SparesOp host A f inst op) :
    Exec.wlp (Switch.cases img host inst (instA inst) (instB inst) (instC inst) op) (fun _ g => A.Same f.toHostView g.toHostView) f := by
  obtain ⟨hregs, hbytes, hsys⟩ := h
  have hself : A.Same f.toHostView f.toHostView := ⟨fun _ _ => rfl, fun _ _ => rfl⟩
  cases op
  all_goals simp only [Switch.cases]
  all_goals simp only [Exec.wlp_bind, Exec.wlp_pure, Exec.wlp_ite, wlp_failIf, wlp_reg, wlp_setReg, wlp_setRegAt, wlp_getPc, wlp_setPc,
    wlp_load8, wlp_load16, wlp_load32, wlp_funcOffset, wlp_importFn, wlp_memmove, wlp_memcpy, store8, store16, store32, memset, wlp_writeAt]
  -- The handlers that write register A, and those that write nothing.
  all_goals try exact hself.update _ (hregs _ List.mem_cons_self)
  all_goals try exact fun _ => hself.update _ (hregs _ List.mem_cons_self)
  all_goals try exact fun _ _ => hself.update _ (hregs _ List.mem_cons_self)
  all_goals try exact fun _ => ⟨fun _ => hself.update _ (hregs _ List.mem_cons_self), fun _ => hself.update _ (hregs _ List.mem_cons_self)⟩
  all_goals try exact hself
  all_goals try exact fun _ => hself
  all_goals try exact ⟨fun _ => hself, fun _ => hself⟩
  case halt => exact Exec.wlp_stop _
  case stw => exact fun _ _ => hself.blit _ (not_bytes_of_mem hbytes List.mem_cons_self)
  case stb => exact fun _ _ => hself.blit _ (not_bytes_of_mem hbytes List.mem_cons_self)
  case sth => exact fun _ _ => hself.blit _ (not_bytes_of_mem hbytes List.mem_cons_self)
  case syscall =>
    intro _ _
    cases hfn : f.importFns.getD _ none with
    | none => exact Exec.wlp_stop _
    | some fn =>
      simp only [Exec.wlp_bind, wlp_callFn, wlp_failIf]
      exact fun _ => hsys rfl fn hfn
  case call =>
    intro _ _ _ _ _
    exact (hself.blit _ (not_bytes_of_mem hbytes List.mem_cons_self)).update _ (hregs _ List.mem_cons_self)
  case callr =>
    intro _ _ _ _ _
    exact (hself.blit _ (not_bytes_of_mem hbytes List.mem_cons_self)).update _ (hregs _ List.mem_cons_self)
  case ret =>
    intro _ _
    exact ⟨fun _ => Exec.wlp_stop _, fun _ => hself.update _ (hregs _ List.mem_cons_self)⟩
  case memcpy =>
    refine ⟨fun _ _ _ _ _ => ?_, fun _ => hself⟩
    exact hself.write (fun i hi => host.memcpy.frame _ _ _ _ i hi) (not_bytes_of_mem hbytes List.mem_cons_self)
  case memset =>
    exact ⟨fun _ _ _ => hself.blit _ (not_bytes_of_mem hbytes List.mem_cons_self), fun _ => hself⟩
  case memmove =>
    exact ⟨fun _ _ _ _ _ => hself.blit _ (not_bytes_of_mem hbytes List.mem_cons_self), fun _ => hself⟩
  case setjmp =>
    have henv := not_bytes_of_mem hbytes List.mem_cons_self
    have hmem : ∀ pc sp dest : Word, A.Same f.toHostView { f.toHostView with
        heap := ((f.heap.setWord (f.regs (instB inst)).toNat pc).setWord ((f.regs (instB inst)).toNat + 4) sp).setWord
          ((f.regs (instB inst)).toNat + 8) dest } := by
      intro pc sp dest
      exact ((hself.blit _ fun i hi => henv i (by omega)).blit _ fun i hi => henv i (by omega)).blit _ fun i hi => henv i (by omega)
    intro _ _ _ _
    exact (hmem _ _ _).update _ (hregs _ List.mem_cons_self)
  case longjmp =>
    intro _ _ _ _ _ _ _
    exact (hself.update _ (hregs _ List.mem_cons_self)).update _ (hregs _ (List.mem_cons_of_mem _ List.mem_cons_self))
  case coroSwap =>
    have hsrc := not_bytes_of_mem hbytes List.mem_cons_self
    have hdst := not_bytes_of_mem hbytes (List.mem_cons_of_mem _ List.mem_cons_self)
    have hreg := hregs _ List.mem_cons_self
    have hsp := hregs _ (List.mem_cons_of_mem _ List.mem_cons_self)
    have hmem : ∀ pc sp dest running suspended : Word, A.Same f.toHostView { f.toHostView with
        heap := ((((f.heap.setWord (f.regs (instA inst)).toNat pc).setWord ((f.regs (instA inst)).toNat + 4) sp).setWord
          ((f.regs (instA inst)).toNat + 8) dest).setWord ((f.regs (instA inst)).toNat + 12) suspended).setWord
          ((f.regs (instB inst)).toNat + 12) running } := by
      intro pc sp dest running suspended
      exact ((((hself.blit _ fun i hi => hsrc i (by omega)).blit _ fun i hi => hsrc i (by omega)).blit _
        fun i hi => hsrc i (by omega)).blit _ fun i hi => hsrc i (by omega)).blit _ hdst
    intro _ _ _ _ _ _ _ _
    exact ⟨fun _ _ _ _ _ _ _ _ _ _ _ =>
        ⟨fun _ _ => ((hmem _ _ _ _ _).update _ hreg).update _ hsp, fun _ => (hmem _ _ _ _ _).update _ hsp⟩,
      fun _ _ _ _ _ _ _ => ⟨fun _ _ => ((hmem _ _ _ _ _).update _ hreg).update _ hsp, fun _ => (hmem _ _ _ _ _).update _ hsp⟩⟩

/-- What the case of the next instruction establishes if it returns, the step does. -/
theorem of_step {Q : Unit → Frame κ W → Prop} (build : Build) (hstep : build.step img host f = .val () g)
    (h : ∀ op, Opcode.ofByte? (instOp (img.code.getD f.pc.toNat 0)) = some op → ∀ w, w = img.code.getD f.pc.toNat 0 →
      Exec.wlp (Switch.cases img host w (instA w) (instB w) (instC w) op) Q { f with pc := f.pc + 1 }) : Q () g := by
  have hbuild : build.step img host = Switch.step img host := by
    cases build with
    | threaded => exact BuildsAux.step_eq img host
    | switch => rfl
  have hwlp : Exec.wlp (Switch.step img host) Q f := by
    simp only [Switch.step, Exec.wlp_bind, wlp_getPc, wlp_failIf, wlp_codeAt, wlp_setPc]
    intro _ _
    cases hop : Opcode.ofByte? (instOp (img.code.getD f.pc.toNat 0)) with
    | none => exact Exec.wlp_stop _
    | some op => exact h op hop _ rfl
  rw [hbuild] at hstep
  exact hwlp () g hstep

/-- What the case of an instruction establishes if it returns, the step of that instruction does. -/
theorem of_next {Q : Unit → Frame κ W → Prop} {build : Build} {w : Word} (hnext : NextIs img f op w)
    (hstep : build.step img host f = .val () g)
    (h : Exec.wlp (Switch.cases img host w (instA w) (instB w) (instC w) op) Q { f with pc := f.pc + 1 }) : Q () g := by
  obtain ⟨rfl, hop⟩ := hnext
  refine of_step build hstep fun op' hop' w' hw' => ?_
  rw [hop, Opcode.ofByte?_code] at hop'
  cases hop'
  rw [hw']
  exact h

/-- A step that writes nothing of the area leaves it as it is. -/
theorem step_spares (build : Build) (h : SparesNext img host A f) (hstep : build.step img host f = .val () g) :
    A.Same f.toHostView g.toHostView := by
  have hcases : ∀ op, Opcode.ofByte? (instOp (img.code.getD f.pc.toNat 0)) = some op → ∀ w, w = img.code.getD f.pc.toNat 0 →
      Exec.wlp (Switch.cases img host w (instA w) (instB w) (instC w) op) (fun _ g => A.Same f.toHostView g.toHostView)
        { f with pc := f.pc + 1 } := by
    intro op hop w hw
    subst hw
    exact cases_spares (f := { f with pc := f.pc + 1 }) (h op hop)
  exact of_step build hstep hcases

/-- A run whose steps write nothing of the area leaves it as it is. -/
theorem reaches_spares (build : Build) (h : Exec.ReachesVia (SparesNext img host A) (build.step img host) f g) :
    A.Same f.toHostView g.toHostView := by
  induction h with
  | refl => exact ⟨fun _ _ => rfl, fun _ _ => rfl⟩
  | step _ hspares hstep ih => exact ih.trans (step_spares build hspares hstep)

end spares

end CronoVM
