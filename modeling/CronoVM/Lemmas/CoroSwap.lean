import CronoVM.Lemmas.Bounds
import CronoVM.Theorems.Builds

/-!
# Coroutine swaps

What one `CORO_SWAP` does: it traps and has changed nothing, or it suspends the record it names as its source and resumes the other.
-/

namespace CronoVM

open Checked Vm BoundsAux

variable {κ W : Type}

/-! ## Coroutine records -/

def coroFresh : Word := 0#32

def coroRunning : Word := 1#32

def coroSuspended : Word := 2#32

/-- The four words of a coroutine record. -/
def recPc (m : Mem) (r : Word) : Word := m.word r.toNat

def recSp (m : Mem) (r : Word) : Word := m.word (r.toNat + 4)

def recDest (m : Mem) (r : Word) : Word := m.word (r.toNat + 8)

def recStatus (m : Mem) (r : Word) : Word := m.word (r.toNat + 12)

/-- A byte is none of a record. -/
def OutsideRec (r : Word) (i : Nat) : Prop := i < r.toNat ∨ r.toNat + 16 ≤ i

/-- Two records do not overlap. -/
def RecsApart (r r' : Word) : Prop := r.toNat + 16 ≤ r'.toNat ∨ r'.toNat + 16 ≤ r.toNat

/-- What `CORO_SWAP` writes. -/
def swapWrites (m : Mem) (src dst pc sp dest : Word) : Mem :=
  ((((m.setWord src.toNat pc).setWord (src.toNat + 4) sp).setWord (src.toNat + 8) dest).setWord (src.toNat + 12) coroSuspended).setWord
    (dst.toNat + 12) coroRunning

section writes

variable (m : Mem) {src dst r : Word} (pc sp dest : Word)

/-- The record swapped from. -/
theorem swapWrites_src (h : RecsApart src dst) : recPc (swapWrites m src dst pc sp dest) src = pc ∧
    recSp (swapWrites m src dst pc sp dest) src = sp ∧ recDest (swapWrites m src dst pc sp dest) src = dest ∧
    recStatus (swapWrites m src dst pc sp dest) src = coroSuspended := by
  unfold RecsApart at h
  unfold recPc recSp recDest recStatus swapWrites
  refine ⟨?_, ?_, ?_, ?_⟩
  · rw [Mem.word_setWord_of_disjoint _ _ (by omega), Mem.word_setWord_of_disjoint _ _ (by omega),
      Mem.word_setWord_of_disjoint _ _ (by omega), Mem.word_setWord_of_disjoint _ _ (by omega), Mem.word_setWord]
  · rw [Mem.word_setWord_of_disjoint _ _ (by omega), Mem.word_setWord_of_disjoint _ _ (by omega),
      Mem.word_setWord_of_disjoint _ _ (by omega), Mem.word_setWord]
  · rw [Mem.word_setWord_of_disjoint _ _ (by omega), Mem.word_setWord_of_disjoint _ _ (by omega), Mem.word_setWord]
  · rw [Mem.word_setWord_of_disjoint _ _ (by omega), Mem.word_setWord]

/-- The record swapped to. -/
theorem swapWrites_dst : recStatus (swapWrites m src dst pc sp dest) dst = coroRunning := Mem.word_setWord _ _ _

/-- Nothing else is written. -/
theorem swapWrites_byte {i : Nat} (hsrc : OutsideRec src i) (hdst : OutsideRec dst i) :
    (swapWrites m src dst pc sp dest).byte i = m.byte i := by
  unfold OutsideRec at hsrc hdst
  unfold swapWrites
  have hkeep : ∀ (m' : Mem) (p : Nat) (w : Word), (i < p ∨ p + 4 ≤ i) → (m'.setWord p w).byte i = m'.byte i := by
    intro m' p w hp
    rcases hp with hp | hp
    · exact m'.blit_byte_of_lt _ hp
    · exact m'.blit_byte_of_ge _ hp
  rw [hkeep _ _ _ (by omega), hkeep _ _ _ (by omega), hkeep _ _ _ (by omega), hkeep _ _ _ (by omega), hkeep _ _ _ (by omega)]

end writes

/-- A record depends on its bytes. -/
theorem rec_congr {m m' : Mem} {r : Word} (h : ∀ i, ¬OutsideRec r i → m'.byte i = m.byte i) :
    recPc m' r = recPc m r ∧ recSp m' r = recSp m r ∧ recDest m' r = recDest m r ∧ recStatus m' r = recStatus m r := by
  have hword : ∀ k, k + 4 ≤ 16 → m'.word (r.toNat + k) = m.word (r.toNat + k) := by
    intro k hk
    refine leWord_congr fun j hj => h _ ?_
    unfold OutsideRec
    omega
  exact ⟨hword 0 (by decide), hword 4 (by decide), hword 8 (by decide), hword 12 (by decide)⟩

/-! ## One swap -/

/-- What a swap that does not trap makes of a state. -/
structure Swapped (img : Image κ) (a b : Byte) (f g : Frame κ W) : Prop where
  src_ne : f.regs a ≠ f.regs b
  src_room : (f.regs a).toNat + 16 ≤ img.memSize.toNat
  dst_room : (f.regs b).toNat + 16 ≤ img.memSize.toNat
  ready : recStatus f.heap (f.regs b) = coroFresh ∨ recStatus f.heap (f.regs b) = coroSuspended
  heap : g.heap = swapWrites f.heap (f.regs a) (f.regs b) f.pc (f.regs regSp) (a.setWidth 32)
  resumed : recStatus f.heap (f.regs b) = coroSuspended → g.pc = recPc f.heap (f.regs b) ∧
    g.regs = Function.update f.regs regSp (recSp f.heap (f.regs b))
  fresh : recStatus f.heap (f.regs b) = coroFresh → recPc f.heap (f.regs b) ≠ 0#32 ∧ recPc f.heap (f.regs b) < img.funcCount ∧
    g.pc = img.funcTable.getD (recPc f.heap (f.regs b)).toNat 0 ∧ (recDest f.heap (f.regs b)).toNat < regCount ∧
    g.regs = Function.update (Function.update f.regs (BitVec.ofNat 8 (recDest f.heap (f.regs b)).toNat) (f.regs b)) regSp
      (recSp f.heap (f.regs b))
  pc_lt : g.pc < img.codeCount

/-- The handler either ends the run in the state it found, or swaps. -/
theorem coroSwap_ok {img : Image κ} (himg : img.Wf) {host : Host κ W} (inst : Word) (a b c : Byte) (f : Frame κ W)
    (hsize : f.heap.size = img.memSize.toNat) :
    Exec.wp (Threaded.handler img host inst a b c .lCoroSwap) (fun _ g => Swapped img a b f g) (fun _ g => g = f) f := by
  have h16 : (16 : Word).toNat = 16 := rfl
  simp only [Threaded.handler, Exec.wp_bind, Exec.wp_pure, Exec.wp_ite, wp_failIf, wp_reg, wp_setReg, wp_setRegAt, wp_getPc, wp_setPc,
    wp_load32, wp_funcOffset, store32, wp_writeAt, Mem.setWord_size, himg.funcs_length, hsize, implies_true, true_and]
  intro hsrc hdst hne
  have hsrc := range_le hsrc
  have hdst := range_le hdst
  have h4 : ∀ r : Word, r.toNat + (16 : Word).toNat ≤ img.memSize.toNat → r.toNat + 4 ≤ img.memSize.toNat ∧
      r.toNat + 4 + 4 ≤ img.memSize.toNat ∧ r.toNat + 8 + 4 ≤ img.memSize.toNat ∧ r.toNat + 12 + 4 ≤ img.memSize.toNat := by
    intro r hr
    rw [h16] at hr
    exact ⟨by omega, by omega, by omega, by omega⟩
  obtain ⟨hsrc0, hsrc4, hsrc8, hsrc12⟩ := h4 _ hsrc
  obtain ⟨hdst0, hdst4, hdst8, hdst12⟩ := h4 _ hdst
  refine ⟨hdst12, fun hstat => ⟨hdst0, hdst4, hdst8, fun hfresh hnull hfid => ?_, fun hfresh hpc => ?_⟩⟩
  · refine ⟨toNat_lt_of_not_ge hfid, fun hdest hpc => ⟨hsrc0, hsrc4, hsrc8, hsrc12, hdst12, fun _ => ⟨Nat.not_le.mp hdest, ?_⟩, ?_⟩⟩
    · exact ⟨hne, hsrc, hdst, Or.inl hfresh, rfl, fun hsusp => absurd (hsusp.symm.trans hfresh) (by decide),
        fun _ => ⟨hnull, BitVec.not_le.mp hfid, rfl, Nat.not_le.mp hdest, rfl⟩, BitVec.not_le.mp hpc⟩
    · exact fun hold => absurd hfresh hold
  · refine ⟨hsrc0, hsrc4, hsrc8, hsrc12, hdst12, fun hold => absurd hold hfresh, fun _ => ?_⟩
    have hsusp : recStatus f.heap (f.regs b) = coroSuspended := by
      by_contra hsusp
      exact hstat ⟨hfresh, hsusp⟩
    exact ⟨hne, hsrc, hdst, Or.inr hsusp, rfl, fun _ => ⟨rfl, rfl⟩, fun hold => absurd hold hfresh, BitVec.not_le.mp hpc⟩

/-- The next instruction is a swap. -/
def AtSwap (img : Image κ) (f : Frame κ W) (a b : Byte) : Prop :=
  f.pc < img.codeCount ∧ instOp (img.code.getD f.pc.toNat 0) = Opcode.coroSwap.code ∧ instA (img.code.getD f.pc.toNat 0) = a ∧
    instB (img.code.getD f.pc.toNat 0) = b

/-- A swap in either build, from the fetch on. -/
theorem swap_step {img : Image κ} (himg : img.Wf) {host : Host κ W} (build : Build) {a b : Byte} {f : Frame κ W}
    (hsize : f.heap.size = img.memSize.toNat) (hat : AtSwap img f a b) :
    Exec.wp (build.step img host) (fun _ g => Swapped img a b { f with pc := f.pc + 1 } g) (fun _ g => g = { f with pc := f.pc + 1 }) f := by
  obtain ⟨hpc, hop, ha, hb⟩ := hat
  have hbuild : build.step img host = Threaded.step img host := by
    cases build with
    | threaded => rfl
    | switch => exact (BuildsAux.step_eq img host).symm
  have hlabel : Threaded.jt Opcode.coroSwap.code = some .lCoroSwap := by
    rw [BuildsAux.jt_eq, Opcode.ofByte?_code]
    rfl
  have hlt : f.pc.toNat < img.code.length := by
    rw [himg.code_length]
    exact hpc
  rw [hbuild]
  simp only [Threaded.step, Exec.wp_bind, wp_getPc, wp_failIf, wp_codeAt, wp_setPc]
  refine ⟨fun hge => absurd hge (BitVec.not_le.mpr hpc), fun _ => ⟨hlt, ?_⟩⟩
  rw [hop, hlabel, ha, hb]
  exact coroSwap_ok himg _ a b _ _ hsize

end CronoVM
