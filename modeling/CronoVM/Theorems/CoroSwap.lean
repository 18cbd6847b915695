import CronoVM.Lemmas.CoroSwap
import CronoVM.Theorems.Safety

/-!
# Coroutine swaps

Every sequence of swaps among coroutine records that nothing else writes, with any other steps of the program in between.
-/

namespace CronoVM

open Checked Vm

variable {κ W : Type} {build : Build} {img : Image κ} {host : Host κ W} {records : Word → Prop} {first : Word} {f₀ f g : Frame κ W}

/-- A swap of a run: the two records, the pc following it and the stack pointer at it. -/
structure Swap where
  src : Word
  dst : Word
  pc : Word
  sp : Word

/-- The record that was swapped to last, at first the one that runs from the start. -/
def runningRec (first : Word) : List Swap → Word
  | [] => first
  | e :: _ => e.dst

/-- The last swap from a record; the log has the last swap first. -/
def lastOut (log : List Swap) (r : Word) : Option Swap := log.find? fun e => e.src = r

/-- At the start one record is running and the others are fresh. -/
structure CoroStart (img : Image κ) (records : Word → Prop) (first : Word) (f₀ : Frame κ W) : Prop where
  size : f₀.heap.size = img.memSize.toNat
  apart : ∀ r r', records r → records r' → r ≠ r' → RecsApart r r'
  first_mem : records first
  running : recStatus f₀.heap first = coroRunning
  fresh : ∀ r, records r → r ≠ first → recStatus f₀.heap r = coroFresh

/-- The runs: swaps that name the running record as their source, and any other changes of the state that leave the records alone. -/
inductive CoroRun (build : Build) (img : Image κ) (host : Host κ W) (records : Word → Prop) (first : Word) (f₀ : Frame κ W) :
    Frame κ W → List Swap → Prop
  | start : CoroRun build img host records first f₀ f₀ []
  | other {f g : Frame κ W} {log : List Swap} : CoroRun build img host records first f₀ f log → g.heap.size = f.heap.size →
      (∀ r, records r → ∀ i, ¬OutsideRec r i → g.heap.byte i = f.heap.byte i) → CoroRun build img host records first f₀ g log
  | swap {f g : Frame κ W} {log : List Swap} {a b : Byte} : CoroRun build img host records first f₀ f log → AtSwap img f a b →
      f.regs a = runningRec first log → records (f.regs b) → build.step img host f = .val () g →
      CoroRun build img host records first f₀ g (⟨f.regs a, f.regs b, f.pc + 1, f.regs regSp⟩ :: log)

namespace CoroAux

/-- What a step of a run keeps. -/
structure Kept (img : Image κ) (records : Word → Prop) (first : Word) (f₀ f : Frame κ W) (log : List Swap) : Prop where
  size : f.heap.size = img.memSize.toNat
  mem : records (runningRec first log)
  running : recStatus f.heap (runningRec first log) = coroRunning
  suspended : ∀ r e, records r → r ≠ runningRec first log → lastOut log r = some e →
    recStatus f.heap r = coroSuspended ∧ recPc f.heap r = e.pc ∧ recSp f.heap r = e.sp
  fresh : ∀ r, records r → r ≠ runningRec first log → lastOut log r = none → recStatus f.heap r = coroFresh ∧
    recPc f.heap r = recPc f₀.heap r ∧ recSp f.heap r = recSp f₀.heap r ∧ recDest f.heap r = recDest f₀.heap r

/-- Steps that leave the records alone keep what is known of them. -/
theorem Kept.other {log : List Swap} (h : Kept img records first f₀ f log) (hsize : g.heap.size = f.heap.size)
    (hkeep : ∀ r, records r → ∀ i, ¬OutsideRec r i → g.heap.byte i = f.heap.byte i) : Kept img records first f₀ g log := by
  refine ⟨hsize.trans h.size, h.mem, ?_, fun r e hr hne hlast => ?_, fun r hr hne hlast => ?_⟩
  · obtain ⟨-, -, -, hstatus⟩ := rec_congr (hkeep _ h.mem)
    rw [hstatus]
    exact h.running
  · obtain ⟨hpc, hsp, -, hstatus⟩ := rec_congr (hkeep r hr)
    rw [hpc, hsp, hstatus]
    exact h.suspended r e hr hne hlast
  · obtain ⟨hpc, hsp, hdest, hstatus⟩ := rec_congr (hkeep r hr)
    rw [hpc, hsp, hdest, hstatus]
    exact h.fresh r hr hne hlast

/-- A swap suspends the running record with its pc and SP, and runs the other one. -/
theorem Kept.swap {log : List Swap} {a b : Byte} (h : Kept img records first f₀ f log)
    (hapart : ∀ r r', records r → records r' → r ≠ r' → RecsApart r r') (hsrc : f.regs a = runningRec first log) (hdst : records (f.regs b))
    (hswap : Swapped img a b { f with pc := f.pc + 1 } g) :
    Kept img records first f₀ g (⟨f.regs a, f.regs b, f.pc + 1, f.regs regSp⟩ :: log) := by
  have hne : f.regs a ≠ f.regs b := hswap.src_ne
  have hheap : g.heap = swapWrites f.heap (f.regs a) (f.regs b) (f.pc + 1) (f.regs regSp) (a.setWidth 32) := hswap.heap
  have hmem : records (f.regs a) := hsrc ▸ h.mem
  -- the other records are not touched
  have hkeep : ∀ r, records r → r ≠ f.regs a → r ≠ f.regs b → recPc g.heap r = recPc f.heap r ∧ recSp g.heap r = recSp f.heap r ∧
      recDest g.heap r = recDest f.heap r ∧ recStatus g.heap r = recStatus f.heap r := by
    intro r hr hra hrb
    have hapartA := hapart r _ hr hmem hra
    have hapartB := hapart r _ hr hdst hrb
    refine rec_congr fun i hi => ?_
    rw [hheap]
    unfold RecsApart at hapartA hapartB
    unfold OutsideRec at hi
    refine swapWrites_byte _ _ _ _ ?_ ?_
    · unfold OutsideRec
      omega
    · unfold OutsideRec
      omega
  have hold : ∀ r, r ≠ f.regs a → lastOut (⟨f.regs a, f.regs b, f.pc + 1, f.regs regSp⟩ :: log) r = lastOut log r := by
    intro r hra
    exact List.find?_cons_of_neg (fun heq => hra (of_decide_eq_true heq).symm)
  refine ⟨?_, hdst, ?_, fun r e hr hrb hlast => ?_, fun r hr hrb hlast => ?_⟩
  · rw [hheap]
    exact h.size
  · rw [hheap]
    exact swapWrites_dst _ _ _ _
  · by_cases hra : r = f.regs a
    · obtain ⟨hpc, hsp, -, hstatus⟩ := swapWrites_src f.heap (f.pc + 1) (f.regs regSp) (a.setWidth 32) (hapart _ _ hmem hdst hne)
      have hhead : lastOut (⟨f.regs a, f.regs b, f.pc + 1, f.regs regSp⟩ :: log) r = some ⟨f.regs a, f.regs b, f.pc + 1, f.regs regSp⟩ :=
        List.find?_cons_of_pos (decide_eq_true hra.symm)
      rw [hhead] at hlast
      rw [← Option.some.inj hlast, hra, hheap]
      exact ⟨hstatus, hpc, hsp⟩
    · obtain ⟨hpc, hsp, -, hstatus⟩ := hkeep r hr hra hrb
      rw [hold r hra] at hlast
      rw [hpc, hsp, hstatus]
      exact h.suspended r e hr (hsrc ▸ hra) hlast
  · by_cases hra : r = f.regs a
    · have hhead : lastOut (⟨f.regs a, f.regs b, f.pc + 1, f.regs regSp⟩ :: log) r = some ⟨f.regs a, f.regs b, f.pc + 1, f.regs regSp⟩ :=
        List.find?_cons_of_pos (decide_eq_true hra.symm)
      rw [hhead] at hlast
      nomatch hlast
    · obtain ⟨hpc, hsp, hdest, hstatus⟩ := hkeep r hr hra hrb
      rw [hold r hra] at hlast
      rw [hpc, hsp, hdest, hstatus]
      exact h.fresh r hr (hsrc ▸ hra) hlast

/-- In every state of a run the records are as the log of its swaps says. -/
theorem CoroRun.kept {log : List Swap} (himg : img.Wf) (hstart : CoroStart img records first f₀)
    (h : CoroRun build img host records first f₀ f log) : Kept img records first f₀ f log := by
  induction h with
  | start =>
    exact ⟨hstart.size, hstart.first_mem, hstart.running, (fun r e _ _ hlast => nomatch hlast),
      fun r hr hne _ => ⟨hstart.fresh r hr hne, rfl, rfl, rfl⟩⟩
  | other _ hsize hkeep ih => exact ih.other hsize hkeep
  | swap _ hat hsrc hdst hstep ih =>
    have hswap := Exec.of_wp (swap_step himg build ih.size hat) hstep
    exact ih.swap hstart.apart hsrc hdst hswap

end CoroAux

open CoroAux

/-- The records in a state of a run. -/
structure RecordsOk (records : Word → Prop) (first : Word) (f : Frame κ W) (log : List Swap) : Prop where
  running_iff : ∀ r, records r → (recStatus f.heap r = coroRunning ↔ r = runningRec first log)
  suspended : ∀ r, records r → recStatus f.heap r = coroSuspended →
    ∃ e, lastOut log r = some e ∧ recPc f.heap r = e.pc ∧ recSp f.heap r = e.sp
  status : ∀ r, records r → recStatus f.heap r = coroRunning ∨ recStatus f.heap r = coroSuspended ∨ recStatus f.heap r = coroFresh

/-- The next swap of a run, from the record in register `a` to the one in register `b`. A fresh record whose destination is SP loses its
own address there. -/
structure SwapOk (img : Image κ) (f₀ f g : Frame κ W) (log : List Swap) (a b : Byte) : Prop where
  resumed : recStatus f.heap (f.regs b) = coroSuspended → ∃ e, lastOut log (f.regs b) = some e ∧ g.pc = e.pc ∧ g.regs regSp = e.sp
  fresh : recStatus f.heap (f.regs b) = coroFresh → img.funcTable[(recPc f₀.heap (f.regs b)).toNat]? = some g.pc ∧
    g.regs regSp = recSp f₀.heap (f.regs b) ∧ (recDest f₀.heap (f.regs b)).toNat < regCount ∧
    (BitVec.ofNat 8 (recDest f₀.heap (f.regs b)).toNat ≠ regSp → g.regs (BitVec.ofNat 8 (recDest f₀.heap (f.regs b)).toNat) = f.regs b)
  memory : ∀ i, OutsideRec (f.regs a) i → OutsideRec (f.regs b) i → g.heap.byte i = f.heap.byte i
  registers : ∀ x, x ≠ regSp →
    (recStatus f.heap (f.regs b) = coroFresh → x ≠ BitVec.ofNat 8 (recDest f₀.heap (f.regs b)).toNat) → g.regs x = f.regs x

namespace CoroAux

/-- One record is running, and the others are suspended or fresh. -/
theorem Kept.recordsOk {log : List Swap} (h : Kept img records first f₀ f log) : RecordsOk records first f log := by
  have hcases : ∀ r, records r → (r = runningRec first log ∧ recStatus f.heap r = coroRunning) ∨
      (r ≠ runningRec first log ∧ ∃ e, lastOut log r = some e ∧ recStatus f.heap r = coroSuspended ∧ recPc f.heap r = e.pc ∧
        recSp f.heap r = e.sp) ∨ (r ≠ runningRec first log ∧ recStatus f.heap r = coroFresh) := by
    intro r hr
    by_cases hrun : r = runningRec first log
    · exact Or.inl ⟨hrun, hrun ▸ h.running⟩
    · cases hlast : lastOut log r with
      | none => exact Or.inr (Or.inr ⟨hrun, (h.fresh r hr hrun hlast).1⟩)
      | some e => exact Or.inr (Or.inl ⟨hrun, e, rfl, h.suspended r e hr hrun hlast⟩)
  have hsusp : coroSuspended ≠ coroRunning := by decide
  have hfresh : coroFresh ≠ coroRunning := by decide
  have hboth : coroSuspended ≠ coroFresh := by decide
  refine ⟨fun r hr => ?_, fun r hr hstat => ?_, fun r hr => ?_⟩
  · rcases hcases r hr with ⟨hrun, hstat⟩ | ⟨hrun, e, -, hstat, -⟩ | ⟨hrun, hstat⟩
    · exact iff_of_true hstat hrun
    · exact iff_of_false (fun h => hsusp (hstat.symm.trans h)) hrun
    · exact iff_of_false (fun h => hfresh (hstat.symm.trans h)) hrun
  · rcases hcases r hr with ⟨-, hrunning⟩ | ⟨-, e, hlast, -, hpc, hsp⟩ | ⟨-, hzero⟩
    · exact absurd (hstat.symm.trans hrunning) hsusp
    · exact ⟨e, hlast, hpc, hsp⟩
    · exact absurd (hstat.symm.trans hzero) hboth
  · rcases hcases r hr with ⟨-, hstat⟩ | ⟨-, e, -, hstat, -⟩ | ⟨-, hstat⟩
    · exact Or.inl hstat
    · exact Or.inr (Or.inl hstat)
    · exact Or.inr (Or.inr hstat)

/-- The next swap goes on where its target has stopped, or enters its function. -/
theorem Kept.swapOk {log : List Swap} {a b : Byte} (h : Kept img records first f₀ f log) (himg : img.Wf)
    (hsrc : f.regs a = runningRec first log) (hdst : records (f.regs b)) (hswap : Swapped img a b { f with pc := f.pc + 1 } g) :
    SwapOk img f₀ f g log a b := by
  have hne : f.regs b ≠ runningRec first log := fun heq => hswap.src_ne (hsrc.trans heq.symm)
  -- a fresh record is one that was never swapped from
  have hnever : recStatus f.heap (f.regs b) = coroFresh → lastOut log (f.regs b) = none := by
    intro hstat
    cases hlast : lastOut log (f.regs b) with
    | none => rfl
    | some e => exact absurd ((h.suspended _ e hdst hne hlast).1.symm.trans hstat) (by decide)
  refine ⟨fun hstat => ?_, fun hstat => ?_, fun i hi hj => ?_, fun x hsp hdest => ?_⟩
  · obtain ⟨e, hlast, hpc, hsp⟩ := h.recordsOk.suspended _ hdst hstat
    obtain ⟨hgpc, hregs⟩ := hswap.resumed hstat
    refine ⟨e, hlast, hgpc.trans hpc, ?_⟩
    rw [hregs, Function.update_self]
    exact hsp
  · obtain ⟨-, hpc, hsp, hdest⟩ := h.fresh _ hdst hne (hnever hstat)
    obtain ⟨-, hlt, hgpc, hreg, hregs⟩ := hswap.fresh hstat
    dsimp only at hlt hgpc hreg hregs
    rw [hpc] at hlt hgpc
    rw [hdest] at hreg hregs
    rw [hsp] at hregs
    refine ⟨?_, ?_, hreg, fun hne => ?_⟩
    · have hlength : (recPc f₀.heap (f.regs b)).toNat < img.funcTable.length := by
        rw [himg.funcs_length]
        exact hlt
      rw [hgpc, List.getD_eq_getElem?_getD, List.getElem?_eq_getElem hlength]
      rfl
    · rw [hregs, Function.update_self]
    · rw [hregs, Function.update_of_ne hne, Function.update_self]
  · rw [hswap.heap]
    exact swapWrites_byte _ _ _ _ hi hj
  · rcases hswap.ready with hstat | hstat
    · obtain ⟨-, -, -, hdest₀⟩ := h.fresh _ hdst hne (hnever hstat)
      obtain ⟨-, -, -, -, hregs⟩ := hswap.fresh hstat
      have hx := hdest hstat
      dsimp only at hregs
      rw [← hdest₀] at hx
      rw [hregs, Function.update_of_ne hsp, Function.update_of_ne hx]
    · rw [(hswap.resumed hstat).2, Function.update_of_ne hsp]

end CoroAux

/-- A swap that traps has changed no memory and no register, and in every run of swaps each one resumes a record where it was suspended,
or starts it. -/
theorem coroSwap_resumes (build : Build) (img : Image κ) (himg : img.Wf) (host : Host κ W) :
    (∀ f e g a b, AtSwap img f a b → f.heap.size = img.memSize.toNat → build.step img host f = .stop e g →
      g.heap = f.heap ∧ g.regs = f.regs) ∧
    ∀ records first f₀ f log, CoroStart img records first f₀ → CoroRun build img host records first f₀ f log →
      RecordsOk records first f log ∧
      ∀ a b g, AtSwap img f a b → f.regs a = runningRec first log → records (f.regs b) → build.step img host f = .val () g →
        SwapOk img f₀ f g log a b := by
  refine ⟨fun f e g a b hat hsize hstop => ?_, fun records first f₀ f log hstart hrun => ?_⟩
  · have hstep : Exec.wp (build.step img host) (fun _ g => Swapped img a b { f with pc := f.pc + 1 } g)
        (fun _ g => g = { f with pc := f.pc + 1 }) f := swap_step himg build hsize hat
    unfold Exec.wp at hstep
    rw [hstop] at hstep
    rw [hstep]
    exact ⟨rfl, rfl⟩
  · have hkept := CoroRun.kept himg hstart hrun
    refine ⟨hkept.recordsOk, fun a b g hat hsrc hdst hstep => ?_⟩
    have hswap := Exec.of_wp (swap_step himg build hkept.size hat) hstep
    exact hkept.swapOk himg hsrc hdst hswap

/-! ## A fresh record with its destination in SP -/

/-- One function at the place 0, of one instruction: a swap from the record in `R0` to the one in `R1`. -/
def swapImage : Image Unit :=
  { codeImage [encR .coroSwap 0 1 0] with heapSize := 64, stackSize := 0, funcOffsets := some [0, 0], funcCount := 2 }

/-- A running record at 0 and a fresh one of function 1 at 16, with the stack pointer 48 and some destination. -/
def swapFrame (dest : Word) : Frame Unit Unit where
  regs := Function.update (fun _ => 0) 1 16
  heap := (((((⟨64, fun _ => 0⟩ : Mem).setWord 12 1).setWord 16 1).setWord 20 48).setWord 24 dest)
  importFns := []
  world := ()
  pc := 0

/-- The records of `swapFrame`. -/
def swapRecords (r : Word) : Prop := r = 0 ∨ r = 16

/-- Before the first swap one record is running and the other one is fresh. -/
theorem swapFrame_start {img : Image Unit} (hmem : img.memSize = 64) (dest : Word) : CoroStart img swapRecords 0 (swapFrame dest) := by
  have hzero : recStatus (swapFrame dest).heap 0 = coroRunning := by
    unfold recStatus swapFrame
    dsimp only
    rw [Mem.word_setWord_of_disjoint _ _ (by decide), Mem.word_setWord_of_disjoint _ _ (by decide),
      Mem.word_setWord_of_disjoint _ _ (by decide)]
    exact Mem.word_setWord _ _ _
  have hother : recStatus (swapFrame dest).heap 16 = coroFresh := by
    unfold recStatus swapFrame
    dsimp only
    rw [Mem.word_setWord_of_disjoint _ _ (by decide), Mem.word_setWord_of_disjoint _ _ (by decide),
      Mem.word_setWord_of_disjoint _ _ (by decide), Mem.word_setWord_of_disjoint _ _ (by decide)]
    rfl
  refine ⟨by rw [hmem]; rfl, fun r r' hr hr' hne => ?_, Or.inl rfl, hzero, fun r hr hne => ?_⟩
  · rcases hr with rfl | rfl <;> rcases hr' with rfl | rfl
    · exact absurd rfl hne
    · exact Or.inl (by decide)
    · exact Or.inr (by decide)
    · exact absurd rfl hne
  · rw [hr.resolve_left hne]
    exact hother

theorem swapFrame_atSwap (dest : Word) : AtSwap swapImage (swapFrame dest) 0 1 :=
  ⟨(by decide : (0 : Word) < 1), instOp_encR .coroSwap 0 1 0, instA_encR .coroSwap 0 1 0, instB_encR .coroSwap 0 1 0⟩

/-- The address of the record that starts is not in the destination register, which is SP. -/
theorem swapFrame_destSp : ∃ g, Build.step .threaded swapImage quietHost (swapFrame 255) = .val () g ∧
    CoroStart swapImage swapRecords 0 (swapFrame 255) ∧ AtSwap swapImage (swapFrame 255) 0 1 ∧ (swapFrame 255).regs 0 = 0 ∧
    recStatus (swapFrame 255).heap ((swapFrame 255).regs 1) = coroFresh ∧
    g.regs (BitVec.ofNat 8 (recDest (swapFrame 255).heap ((swapFrame 255).regs 1)).toNat) ≠ (swapFrame 255).regs 1 :=
  ⟨_, rfl, swapFrame_start rfl 255, swapFrame_atSwap 255, rfl, (swapFrame_start (rfl : swapImage.memSize = 64) 255).fresh 16 (Or.inr rfl) (by decide),
    by decide⟩

/-- The same with a second function at the place 2: it swaps back to the record in `R2`. -/
def swapBackImage : Image Unit :=
  { codeImage [encR .coroSwap 0 1 0, encR .ret 0 0 0, encR .coroSwap 0 2 0] with
    heapSize := 64, stackSize := 0, funcOffsets := some [0, 2], funcCount := 2 }

theorem swapBackImage_wf : swapBackImage.Wf := by
  refine ⟨rfl, rfl, rfl, rfl, by decide, fun off hoff => ?_, Nat.zero_le _⟩
  rcases List.mem_cons.mp hoff with rfl | hoff
  · decide
  · rw [List.mem_singleton.mp hoff]
    decide

/-- A record that starts with its address in `R0` and swaps back to the first one, which is suspended. -/
theorem coroSwap_resumes_swapBack : ∃ g h, Build.step .threaded swapBackImage quietHost (swapFrame 0) = .val () g ∧
    Build.step .threaded swapBackImage quietHost g = .val () h ∧ SwapOk swapBackImage (swapFrame 0) (swapFrame 0) g [] 0 1 ∧
    SwapOk swapBackImage (swapFrame 0) g h [⟨0, 16, 1, 0⟩] 0 2 ∧ RecordsOk swapRecords 0 h [⟨16, 0, 3, 48⟩, ⟨0, 16, 1, 0⟩] ∧ h.pc = 1 := by
  have hresumes := (coroSwap_resumes .threaded swapBackImage swapBackImage_wf quietHost).2 swapRecords 0 (swapFrame 0)
  have hstart : CoroStart swapBackImage swapRecords 0 (swapFrame 0) := swapFrame_start rfl 0
  have hat : AtSwap swapBackImage (swapFrame 0) 0 1 :=
    ⟨(by decide : (0 : Word) < 3), instOp_encR .coroSwap 0 1 0, instA_encR .coroSwap 0 1 0, instB_encR .coroSwap 0 1 0⟩
  have hsteps : ∃ g h, Build.step .threaded swapBackImage quietHost (swapFrame 0) = .val () g ∧
      Build.step .threaded swapBackImage quietHost g = .val () h ∧ (g.pc = 2 ∧ g.regs 0 = 16 ∧ g.regs 2 = 0 ∧ g.regs regSp = 48) ∧ h.pc = 1 :=
    ⟨_, _, rfl, rfl, by decide +kernel, by decide +kernel⟩
  obtain ⟨g, h, hg, hh, ⟨hpc, hsrc, hdst, hsp⟩, hend⟩ := hsteps
  have hback : AtSwap swapBackImage g 0 2 := by
    unfold AtSwap
    rw [hpc]
    exact ⟨(by decide : (2 : Word) < 3), instOp_encR .coroSwap 0 2 0, instA_encR .coroSwap 0 2 0, instB_encR .coroSwap 0 2 0⟩
  have hthere : CoroRun .threaded swapBackImage quietHost swapRecords 0 (swapFrame 0) g [⟨0, 16, 1, 0⟩] :=
    .swap .start hat rfl (Or.inr rfl) hg
  have hagain := CoroRun.swap hthere hback hsrc (Or.inl hdst) hh
  have hnext : (2 : Word) + 1 = 3 := by decide
  rw [hsrc, hdst, hpc, hsp, hnext] at hagain
  exact ⟨g, h, hg, hh, (hresumes _ _ hstart .start).2 0 1 g hat rfl (Or.inr rfl) hg, (hresumes _ _ hstart hthere).2 0 2 h hback hsrc (Or.inl hdst) hh,
    (hresumes _ _ hstart hagain).1, hend⟩

end CronoVM
