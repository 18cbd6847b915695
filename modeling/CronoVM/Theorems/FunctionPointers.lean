import CronoVM.Lemmas.Calls
import CronoVM.Theorems.Roundtrip

/-!
# Function pointers

A function pointer is the number of a slot. The writer gives the functions the even slots from 2 on and leaves the odd ones between them
zero. A zero is no trap: it is the place of the first instruction.
-/

namespace CronoVM

open Checked Vm

variable {κ W : Type}

/-- The number of the slot of function `k`. -/
def BinSource.SlotOf (src : BinSource) (v : Word) (k : Nat) : Prop := k < src.funcs.length ∧ v.toNat = cvmFnSlot k

/-- A number between the slots of the functions of the table. -/
def BinSource.BetweenSlots (src : BinSource) (v : Word) : Prop :=
  src.emitFuncs = true ∧ v.toNat % 2 = 1 ∧ v.toNat < cvmFnSlot (src.funcs.length - 1) ∧ 0 < src.funcs.length

/-- A call through `v` that ends so has gone to the function whose slot `v` is, or has trapped if there is none. -/
def ToSlotsOnly (src : BinSource) (v : Word) (o : Outcome (Frame κ W) Halt Unit) : Prop :=
  (∀ g, o = .val () g → ∃ k, src.SlotOf v k ∧ src.funcs[k]? = some g.pc) ∧
  ((∀ k, ¬src.SlotOf v k) → ∃ e g, o = .stop ⟨e, none⟩ g ∧ e ≠ .ok)

namespace PointersAux

open CallsAux WrittenAux RoundtripAux

variable {src : BinSource} {img : Image κ} {v : Word} {f : Frame κ W}

/-! ## The table -/

/-- The image has the table of the writer. -/
theorem funcTable_eq (h : src.Valid) (himg : ImageOf (writeBin src) img) : img.funcTable = src.funcsWords := by
  rw [Image.funcTable, himg.funcOffsets]
  by_cases hpos : 0 < src.secSize .funcs
  · rw [if_pos ((fileSize_pos h.code h.file_lt _).mpr hpos), funcs_at h hpos, Option.getD_some]
  · rw [if_neg fun hp => hpos ((fileSize_pos h.code h.file_lt _).mp hp), Option.getD_none]
    rw [BinSource.secSize, length_funcsBuf] at hpos
    exact (List.length_eq_zero_iff.mp (by omega)).symm

/-- The odd slots are never written. -/
theorem fillSlots_odd (funcs : List Word) (k p : Nat) (buf : List Word) (hp : p % 2 = 1) : (fillSlots funcs k buf)[p]? = buf[p]? := by
  induction funcs generalizing k buf with
  | nil => rfl
  | cons f funcs ih =>
    have hne : cvmFnSlot k ≠ p := by
      rw [cvmFnSlot]
      omega
    rw [fillSlots_cons, ih, List.getElem?_set_ne hne]

/-- The table ends with the slot of the last function; it is empty where none is emitted. -/
theorem length_funcsWords : src.funcsWords.length =
    if src.emitFuncs = true ∧ 0 < src.funcs.length then cvmFnSlot (src.funcs.length - 1) + 1 else 0 := by
  by_cases hemit : src.emitFuncs = true ∧ 0 < src.funcs.length
  · rw [if_pos hemit, funcsWords_of hemit.1 (List.ne_nil_of_length_pos hemit.2), length_fillSlots, List.length_replicate]
  · rw [if_neg hemit, BinSource.funcsWords, if_neg hemit, List.length_nil]

/-- A number that passes the checks of a call is the slot of a function or lies between two of them. -/
theorem slot_or_between (hne : v ≠ 0) (hlt : v.toNat < src.funcsWords.length) : (∃ k, src.SlotOf v k) ∨ src.BetweenSlots v := by
  rw [length_funcsWords] at hlt
  by_cases hemit : src.emitFuncs = true ∧ 0 < src.funcs.length
  · rw [if_pos hemit] at hlt
    have hpos : v.toNat ≠ 0 := fun hz => hne (BitVec.eq_of_toNat_eq hz)
    rcases Nat.mod_two_eq_zero_or_one v.toNat with heven | hodd
    · refine Or.inl ⟨v.toNat / 2 - 1, ?_, ?_⟩
      · rw [cvmFnSlot] at hlt
        omega
      · rw [cvmFnSlot]
        omega
    · exact Or.inr ⟨hemit.1, hodd, by rw [cvmFnSlot] at hlt ⊢; omega, hemit.2⟩
  · rw [if_neg hemit] at hlt
    exact absurd hlt (Nat.not_lt_zero _)

/-- An odd number is the slot of no function. -/
theorem not_slotOf_of_between (h : src.BetweenSlots v) (k : Nat) : ¬src.SlotOf v k := by
  obtain ⟨-, hodd, -, -⟩ := h
  rintro ⟨-, hslot⟩
  rw [hslot, cvmFnSlot] at hodd
  omega

/-- The number passes the checks every call makes. -/
def Passes (img : Image κ) (v : Word) : Prop := v ≠ 0 ∧ v < img.funcCount

/-- A number that passes the checks is in the table of the file. -/
theorem lt_of_passes (h : src.Valid) (himg : ImageOf (writeBin src) img) (hwf : img.Wf) (hpass : Passes img v) :
    v.toNat < src.funcsWords.length := by
  rw [← funcTable_eq h himg, hwf.funcs_length]
  exact hpass.2

/-- The table of the image is that of the file. -/
theorem getD_funcTable {w : Word} (htable : img.funcTable = src.funcsWords) (h : src.funcsWords[v.toNat]? = some w) :
    img.funcTable.getD v.toNat 0 = w := by
  rw [htable, List.getD_eq_getElem?_getD, h, Option.getD_some]

/-- What the slot of a function holds. -/
theorem funcTable_slot (h : src.Valid) (himg : ImageOf (writeBin src) img) (hwf : img.Wf) (hpass : Passes img v) {k : Nat}
    (hslot : src.SlotOf v k) : src.funcs[k]? = some (img.funcTable.getD v.toNat 0) := by
  obtain ⟨hk, hv⟩ := hslot
  have hlt := lt_of_passes h himg hwf hpass
  have hemit : src.emitFuncs = true := by
    by_contra hno
    rw [length_funcsWords, if_neg fun he => hno he.1] at hlt
    exact Nat.not_lt_zero _ hlt
  have hword : src.funcsWords[v.toNat]? = some src.funcs[k] := by
    rw [hv, funcsWords_slot hemit hk, List.getElem?_eq_getElem hk]
  rw [getD_funcTable (funcTable_eq h himg) hword, List.getElem?_eq_getElem hk]

/-- A number between two slots passes the checks, and its entry is zero. -/
theorem between_passes (h : src.Valid) (himg : ImageOf (writeBin src) img) (hwf : img.Wf) (hbetween : src.BetweenSlots v) :
    Passes img v ∧ img.funcTable.getD v.toNat 0 = 0 := by
  obtain ⟨hemit, hodd, hlt, hpos⟩ := hbetween
  have htable := funcTable_eq h himg
  have hlen : src.funcsWords.length = cvmFnSlot (src.funcs.length - 1) + 1 := by rw [length_funcsWords, if_pos ⟨hemit, hpos⟩]
  have hword : src.funcsWords[v.toNat]? = some 0 := by
    have hrange : v.toNat < cvmFnSlot (src.funcs.length - 1) + 1 := Nat.lt_succ_of_lt hlt
    rw [funcsWords_of hemit (List.ne_nil_of_length_pos hpos), fillSlots_odd _ _ _ _ hodd, List.getElem?_replicate, if_pos hrange]
  refine ⟨⟨?_, ?_⟩, getD_funcTable htable hword⟩
  · rintro rfl
    exact absurd hodd (by decide)
  · rw [BitVec.lt_def, ← hwf.funcs_length, htable, hlen]
    exact Nat.lt_succ_of_lt hlt

/-! ## Calls -/

/-- A call that traps goes nowhere. -/
theorem toSlotsOnly_of_stop {o : Outcome (Frame κ W) Halt Unit} {e : CvmResult} {g : Frame κ W} (ho : o = .stop ⟨e, none⟩ g)
    (he : e ≠ .ok) : ToSlotsOnly src v o := by
  subst ho
  exact ⟨fun _ hval => (nomatch hval), fun _ => ⟨e, g, rfl, he⟩⟩

/-- A call that goes where the table says is to slots only unless its number is between them. -/
theorem toSlotsOnly_of_val (h : src.Valid) (himg : ImageOf (writeBin src) img) (hwf : img.Wf) (hpass : Passes img v)
    {o : Outcome (Frame κ W) Halt Unit} {g : Frame κ W} (ho : o = .val () g) (hpc : g.pc = img.funcTable.getD v.toNat 0) :
    ToSlotsOnly src v o ↔ ¬src.BetweenSlots v := by
  subst ho
  constructor
  · intro honly hbetween
    obtain ⟨k, hslot, -⟩ := honly.1 g rfl
    exact not_slotOf_of_between hbetween k hslot
  · intro hbetween
    obtain ⟨k, hslot⟩ := (slot_or_between hpass.1 (lt_of_passes h himg hwf hpass)).resolve_right hbetween
    refine ⟨fun g' hval => ?_, fun hno => absurd hslot (hno k)⟩
    cases hval
    exact ⟨k, hslot, by rw [hpc]; exact funcTable_slot h himg hwf hpass hslot⟩

/-- `cvm_call` up to its first instruction goes where the table says, or it ends with an error. -/
theorem wp_call (hwf : img.Wf) (build : Build) (host : Host κ W) (args : List Word) (hsize : f.heap.size = img.memSize.toNat) :
    Exec.wp (Start.run (.call v) build img host args 0)
      (fun _ g => (Passes img v ∧ args.length ≤ regCount) ∧ g.pc = img.funcTable.getD v.toNat 0)
      (fun e _ => ¬(Passes img v ∧ args.length ≤ regCount) ∧ ∃ c, e = ⟨c, none⟩ ∧ c ≠ .ok) f := by
  simp only [Start.run, Start.pc, callEntry, cvmExecAt, enter, Exec.iterate, Exec.wp_bind, Exec.wp_pure, Exec.wp_ite, Exec.wp_demand,
    Exec.wp_modify, wp_failIf, wp_funcOffset, wp_setReg, store32, wp_writeAt]
  refine ⟨fun hnone => ⟨fun hok => ?_, _, rfl, by decide⟩, fun _ => ⟨fun hzero => ⟨fun hok => hok.1.1 hzero, _, rfl, by decide⟩,
    fun hne => ⟨fun hge => ⟨fun hok => BitVec.not_le.mpr hok.1.2 hge, _, rfl, by decide⟩, fun hge => ?_⟩⟩⟩
  · have hlt := hok.1.2
    rw [BitVec.lt_def, ← hwf.funcs_length, Image.funcTable, hnone] at hlt
    exact absurd hlt (Nat.not_lt_zero _)
  have hpass : Passes img v := ⟨hne, BitVec.not_le.mp hge⟩
  have hlt : v.toNat < img.funcTable.length := by
    rw [hwf.funcs_length]
    exact hpass.2
  have hentry : img.funcTable.getD v.toNat 0 < img.codeCount := by
    rw [List.getD_eq_getElem?_getD, List.getElem?_eq_getElem hlt]
    exact hwf.func_lt _ (List.getElem_mem hlt)
  refine ⟨hlt, fun hzero => ?_, fun _ => ⟨fun hbad => absurd hentry (BitVec.not_lt.mpr hbad), fun _ =>
    ⟨fun hmany => ⟨fun hok => absurd hmany (Nat.not_lt.mpr hok.2), _, rfl, by decide⟩, fun hfew =>
      ⟨Nat.le_of_not_lt hfew, fun hstack => ⟨?_, ⟨hpass, Nat.le_of_not_lt hfew⟩, trivial⟩, fun _ => ⟨⟨hpass, Nat.le_of_not_lt hfew⟩, trivial⟩⟩⟩⟩⟩
  · rw [hzero] at hentry
    exact absurd hentry (Nat.not_lt_zero _)
  · have h4 : 4 ≤ img.memSize.toNat := Nat.le_trans (BitVec.le_def.mp hstack) (BitVec.le_def.mp hwf.stack_le)
    have hsub : (img.memSize - 4).toNat = img.memSize.toNat - 4 := BitVec.toNat_sub_of_le (BitVec.le_def.mpr h4)
    rw [hsize, hsub]
    omega

/-- A CALLR goes to the slots of functions exactly if its number is not an odd one inside the table. -/
theorem callr_toSlotsOnly (h : src.Valid) (himg : ImageOf (writeBin src) img) (hwf : img.Wf) (build : Build) (host : Host κ W)
    (hsize : f.heap.size = img.memSize.toNat) {w : Word} (hnext : NextIs img f .callr w) (hreg : f.regs (instA w) = v) :
    ToSlotsOnly src v (build.step img host f) ↔ ¬(src.BetweenSlots v ∧ 4 ≤ f.regs regSp ∧ f.regs regSp ≤ img.memSize) := by
  subst hreg
  have hcall : NextCall img f (f.regs (instA w)) := ⟨w, Or.inr ⟨hnext, rfl⟩⟩
  rw [step_nextCall hwf hcall]
  by_cases htaken : CallTaken img (f.regs (instA w)) { f with pc := f.pc + 1 }
  · obtain ⟨hne, hlt, hge, hle⟩ := id htaken
    have hgoes := toSlotsOnly_of_val h himg hwf ⟨hne, hlt⟩ (callTo_of_taken (f := { f with pc := f.pc + 1 }) hwf hsize htaken) rfl
    rw [hgoes]
    exact not_congr ⟨fun hb => ⟨hb, hge, hle⟩, fun hb => hb.1⟩
  · refine ⟨fun _ hbad => htaken ?_, fun _ => toSlotsOnly_of_stop (callTo_of_not_taken htaken) (callTrap_ne_ok _ _)⟩
    obtain ⟨hpass, -⟩ := between_passes h himg hwf hbad.1
    exact ⟨hpass.1, hpass.2, hbad.2.1, hbad.2.2⟩

/-- The same for a call by the host. -/
theorem call_toSlotsOnly (h : src.Valid) (himg : ImageOf (writeBin src) img) (hwf : img.Wf) (build : Build) (host : Host κ W)
    (hsize : f.heap.size = img.memSize.toNat) (args : List Word) :
    ToSlotsOnly src v (Start.run (.call v) build img host args 0 f) ↔ ¬(src.BetweenSlots v ∧ args.length ≤ regCount) := by
  have hwp := wp_call (v := v) hwf build host args hsize
  unfold Exec.wp at hwp
  cases hrun : Start.run (.call v) build img host args 0 f with
  | val u g =>
    rw [hrun] at hwp
    obtain ⟨⟨hpass, hargs⟩, hpc⟩ := hwp
    rw [toSlotsOnly_of_val h himg hwf hpass rfl hpc]
    exact not_congr ⟨fun hb => ⟨hb, hargs⟩, fun hb => hb.1⟩
  | stop e g =>
    rw [hrun] at hwp
    obtain ⟨hno, c, rfl, hc⟩ := hwp
    exact ⟨fun _ hbad => hno ⟨(between_passes h himg hwf hbad.1).1, hbad.2⟩, fun _ => toSlotsOnly_of_stop rfl hc⟩
  | oob =>
    rw [hrun] at hwp
    exact hwp.elim

end PointersAux

open PointersAux CallsAux

/-- In an image that was loaded from a file of the writer, a CALLR with `v` in its register, and a `cvm_call` with `v`, goes to the entry
of the function whose slot `v` is and traps if there is none, unless `v` lies between two slots of the table. Such a `v` is called, with
the first instruction as its entry, wherever the stack has room (in `cvm_call`: with no more arguments than there are registers). -/
theorem function_pointers_trap {κ A : Type} (al : Allocator A) (world : A) (src : BinSource) (h : src.Valid) (img : Image κ)
    (t : LoadState A) (hload : cvmLoadEx al (writeBin src) (LoadState.start world) = .val img t) (v : Word) {W : Type} (build : Build)
    (host : Host κ W) (f : Frame κ W) (hheap : f.heap.size = img.heap.size) :
    (∀ w, NextIs img f .callr w → f.regs (instA w) = v →
      (ToSlotsOnly src v (build.step img host f) ↔ ¬(src.BetweenSlots v ∧ 4 ≤ f.regs regSp ∧ f.regs regSp ≤ img.memSize))) ∧
    ∀ args : List Word,
      (ToSlotsOnly src v (Start.run (.call v) build img host args 0 f) ↔ ¬(src.BetweenSlots v ∧ args.length ≤ regCount)) := by
  have hwf : img.Wf := SafetyAux.wf_of_load hload
  have himg : ImageOf (writeBin src) img := (imageOf_of_load hload).2.2
  have hsize : f.heap.size = img.memSize.toNat := hheap.trans hwf.heap_size
  exact ⟨fun w hnext hreg => callr_toSlotsOnly h himg hwf build host hsize hnext hreg, call_toSlotsOnly h himg hwf build host hsize⟩

/-! ## A pointer between two slots -/

/-- `main` calls through the pointer 1; its own slot is 2. -/
def oddSource : BinSource :=
  { code := [encI16 .movi 1 1, encR .callr 1 0 0, encR .halt 0 0 0], data := [], heapReserve := 0, stackReserve := 16, imports := [],
    funcs := [0], emitFuncs := true, regions := [], rom := [], metadata := [], sealed := false, entry := 0 }

theorem oddSource_valid : oddSource.Valid :=
  .of_bare rfl rfl (by decide) (by decide) (by simp [oddSource]) (by decide) (by decide +kernel) (by decide)

/-- The frame a run of it is started in. -/
def oddStart (img : Image Unit) : Frame Unit Unit where
  regs _ := 0
  heap := img.heap
  importFns := img.importFns
  world := ()
  pc := 0

/-- A run of the file up to its CALLR. -/
def oddRun : Outcome (Frame Unit Unit) Halt Unit :=
  match (cvmLoadEx bumpAllocator (writeBin oddSource) (LoadState.start 0) : Outcome _ _ (Image Unit)) with
  | .val img _ => Start.run .runArgs .threaded img quietHost [] 1 (oddStart img)
  | _ => .oob

theorem oddSource_loads : ∃ (img : Image Unit) (t : LoadState Nat),
    cvmLoadEx bumpAllocator (writeBin oddSource) (LoadState.start 0) = .val img t :=
  Outcome.exists_of_isVal (by decide +kernel)

/-- The program calls through 1, which is the slot of no function, and starts again at its first instruction; so does `cvm_call` with 1. -/
theorem odd_pointer_called : ∃ (img : Image Unit) (t : LoadState Nat) (f : Frame Unit Unit),
    cvmLoadEx bumpAllocator (writeBin oddSource) (LoadState.start 0) = .val img t ∧
    Start.run .runArgs .threaded img quietHost [] 1 (oddStart img) = .val () f ∧
    NextIs img f .callr (encR .callr 1 0 0) ∧ f.regs 1 = 1 ∧
    ¬ToSlotsOnly oddSource 1 (Build.step .threaded img quietHost f) ∧
    ¬ToSlotsOnly oddSource 1 (Start.run (.call 1) .threaded img quietHost [] 0 f) := by
  obtain ⟨img, t, hload⟩ := oddSource_loads
  have hrun : (oddRun.holds fun _ f => f.pc == 1 && f.regs 1 == 1 && f.regs regSp == 12 && f.heap.size == 16) = true := by decide +kernel
  unfold oddRun at hrun
  rw [hload] at hrun
  obtain ⟨_, f, hf, hstate⟩ := Outcome.exists_of_holds hrun
  simp only [Bool.and_eq_true, beq_iff_eq] at hstate
  obtain ⟨⟨⟨hpc, hreg⟩, hsp⟩, hheap⟩ := hstate
  have hwf : img.Wf := SafetyAux.wf_of_load hload
  have himg : ImageOf (writeBin oddSource) img := (imageOf_of_load hload).2.2
  have hcode : img.code = oddSource.code := (RoundtripAux.carries_of_imageOf oddSource_valid himg).code
  have hmem : img.memSize = 16 := by
    rw [himg.memSize, WrittenAux.fileMemTotal_writeBin oddSource_valid]
    rfl
  have hsize : f.heap.size = img.memSize.toNat := by
    rw [hheap, hmem]
    rfl
  have hnext : NextIs img f .callr (encR .callr 1 0 0) := by
    rw [NextIs, hcode, hpc]
    exact ⟨rfl, rfl⟩
  have hodd : oddSource.BetweenSlots 1 := by
    refine ⟨rfl, rfl, ?_, ?_⟩ <;> decide
  refine ⟨img, t, f, hload, hf, hnext, hreg, fun honly => ?_, fun honly => ?_⟩
  · refine (callr_toSlotsOnly oddSource_valid himg hwf .threaded quietHost hsize hnext hreg).mp honly ⟨hodd, ?_, ?_⟩
    · rw [hsp]
      decide
    · rw [hsp, hmem]
      decide
  · exact (call_toSlotsOnly oddSource_valid himg hwf .threaded quietHost hsize []).mp honly ⟨hodd, Nat.zero_le _⟩

theorem function_pointers_trap_oddSource : ∃ (img : Image Unit) (t : LoadState Nat),
    cvmLoadEx bumpAllocator (writeBin oddSource) (LoadState.start 0) = .val img t ∧
    ToSlotsOnly oddSource 2 (Start.run (.call 2) .threaded img quietHost [] 0 (oddStart img)) ∧
    ToSlotsOnly oddSource 3 (Start.run (.call 3) .threaded img quietHost [] 0 (oddStart img)) := by
  obtain ⟨img, t, hload⟩ := oddSource_loads
  have htrap (v : Word) := function_pointers_trap bumpAllocator 0 oddSource oddSource_valid img t hload v .threaded quietHost
    (oddStart img) rfl
  refine ⟨img, t, hload, ((htrap 2).2 []).mpr fun hbad => ?_, ((htrap 3).2 []).mpr fun hbad => ?_⟩
  · exact absurd hbad.1.2.1 (by decide)
  · exact absurd hbad.1.2.2.1 (by decide)

end CronoVM
