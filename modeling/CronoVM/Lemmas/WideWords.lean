import CronoVM.Lemmas.Blocks
import CronoVM.Lib.TwoWord

/-!
# Two words in the frame

How the code reads a value of two words into registers and writes one back, and the stores a lowering ends with: what they write is
told by a frame in which only the memory has changed.
-/

namespace CronoVM

open Checked Ir TwoWord

variable {κ W : Type}

/-! ## Values of two words -/

/-- The 64-bit value of an operand. -/
def wideVal (cg : Cg) (f : Frame κ W) (v : Val) : BitVec 64 := (wideWords cg f v).2 ++ (wideWords cg f v).1

/-- The 64-bit value at an address. -/
def Frame.wideAt (f : Frame κ W) (p : Nat) : BitVec 64 := f.heap.word (p + 4) ++ f.heap.word p

/-- The frame with a 64-bit value at an address. -/
def Frame.setWide (f : Frame κ W) (p : Nat) (z : BitVec 64) : Frame κ W :=
  (f.setWord p (low (w := 32) z)).setWord (p + 4) (high (w := 32) z)

/-- Two registers in use hold the words of a value. -/
structure HeldWide (cg : Cg) (f : Frame κ W) (r : Byte × Byte) (x : BitVec 64) : Prop where
  val : f.regs r.2 ++ f.regs r.1 = x
  held_lo : Held r.1 cg.nextReg
  held_hi : Held r.2 cg.nextReg

/-- Code that leaves the words of a value in two registers; scratch registers change. -/
def GivesWide (img : Image κ) (host : Host κ W) (cg : Cg) (f : Frame κ W) (x : BitVec 64) (r : Byte × Byte) (cg' : Cg) : Prop :=
  ∃ f', Prepares img host cg f cg' f' ∧ HeldWide cg' f' r x

section read

variable {img : Image κ} {host : Host κ W} {cg cg' : Cg} {f f' : Frame κ W}

/-- A wide value is two words, the lower one first. -/
theorem setWide_append (p : Nat) (hi lo : Word) : f.setWide p (hi ++ lo) = (f.setWord p lo).setWord (p + 4) hi := by
  have hlow : low (w := 32) (hi ++ lo) = lo := low_append hi lo
  have hhigh : high (w := 32) (hi ++ lo) = hi := high_append hi lo
  rw [Frame.setWide, hlow, hhigh]

/-- A value written is the value read back. -/
theorem Frame.wideAt_setWide (f : Frame κ W) (p : Nat) (z : BitVec 64) : (f.setWide p z).wideAt p = z := by
  rw [Frame.wideAt, Frame.setWide, Frame.setWord_heap, Mem.word_setWord, Frame.setWord_heap,
    Mem.word_setWord_of_disjoint _ _ (Or.inl (Nat.le_refl _)), Mem.word_setWord]
  exact append_high_low (w := 32) z

/-- A wide value that is held stays, while operands are prepared. -/
theorem HeldWide.later {r : Byte × Byte} {x : BitVec 64} (h : HeldWide cg f r x) (hprep : Prepares img host cg f cg' f') :
    HeldWide cg' f' r x := by
  refine ⟨?_, hprep.held h.held_lo, hprep.held h.held_hi⟩
  rw [hprep.regs h.held_lo, hprep.regs h.held_hi]
  exact h.val

/-- A wide value that is given after operands are prepared. -/
theorem GivesWide.after {cg'' : Cg} {r : Byte × Byte} {x : BitVec 64} (hcode : img.code.length = img.codeCount.toNat)
    (hprep : Prepares img host cg f cg' f') (h : GivesWide img host cg' f' x r cg'') : GivesWide img host cg f x r cg'' := by
  obtain ⟨f'', hprep', hheld⟩ := h
  exact ⟨f'', hprep.trans hcode hprep', hheld⟩

/-- What follows the two words of an operand. -/
theorem wp_wide {α : Type} {m : Emit (Byte × Byte)} {k : Byte × Byte → Emit α} {x : BitVec 64} {Q : α → Cg → Prop}
    {E : CgError → Cg → Prop} (h : Exec.wp m (GivesWide img host cg f x) E cg)
    (hk : ∀ r cg' f', Prepares img host cg f cg' f' → HeldWide cg' f' r x → Exec.wp (k r) Q E cg') : Exec.wp (m >>= k) Q E cg := by
  rw [Exec.wp_bind]
  refine Exec.wp_mono ?_ (fun _ _ he => he) h
  intro r cg' hgives
  obtain ⟨f', hprep, hheld⟩ := hgives
  exact hk r cg' f' hprep hheld

/-- A register is allocated. -/
theorem wp_allocReg {Q : Byte → Cg → Prop} (hpool : cg.freeList = [])
    (h : ¬cg.nextReg > cgMaxEmitReg → Q (BitVec.ofNat 8 cg.nextReg) cg.alloc) : Exec.wp cgAllocReg Q (fun e _ => e.OfOperand) cg :=
  (wp_cgAllocReg hpool).mpr ⟨fun _ => trivial, h⟩

/-- What follows the allocation of a register. -/
theorem wp_alloc {α : Type} {k : Byte → Emit α} {Q : α → Cg → Prop} (hpool : cg.freeList = [])
    (h : ¬cg.nextReg > cgMaxEmitReg → Exec.wp (k (BitVec.ofNat 8 cg.nextReg)) Q (fun e _ => e.OfOperand) cg.alloc) :
    Exec.wp (cgAllocReg >>= k) Q (fun e _ => e.OfOperand) cg := by
  rw [Exec.wp_bind]
  exact wp_allocReg hpool h

/-- The state after some code and the allocation of some registers. -/
def Cg.extend (cg : Cg) (ws : List Word) (k : Nat) : Cg := { cg.emit ws with nextReg := cg.nextReg + k }

/-- A long sequence starts. -/
theorem wp_extend {α : Type} {m : Emit α} {Q : α → Cg → Prop} {E : CgError → Cg → Prop} (h : Exec.wp m Q E (cg.extend [] 0)) :
    Exec.wp m Q E cg := by
  have hstart : cg.extend [] 0 = cg := by simp only [Cg.extend, Cg.emit, List.append_nil, Nat.add_zero]
  rwa [hstart] at h

/-- What follows the allocation of a register in a long sequence. -/
theorem wp_allocNext {α : Type} {ws : List Word} {n : Nat} {k : Byte → Emit α} {Q : α → Cg → Prop} (hpool : cg.freeList = [])
    (h : ¬cg.nextReg + n > cgMaxEmitReg → Exec.wp (k (BitVec.ofNat 8 (cg.nextReg + n))) Q (fun e _ => e.OfOperand) (cg.extend ws (n + 1))) :
    Exec.wp (cgAllocReg >>= k) Q (fun e _ => e.OfOperand) (cg.extend ws n) :=
  wp_alloc hpool h

/-- What follows an instruction in a long sequence. -/
theorem wp_emitNext {α : Type} {ws : List Word} {n : Nat} {inst : Word} {k : Unit → Emit α} {Q : α → Cg → Prop} {E : CgError → Cg → Prop}
    (h : Exec.wp (k ()) Q E (cg.extend (ws ++ [inst]) n)) : Exec.wp (cgEmit inst >>= k) Q E (cg.extend ws n) := by
  have hstate : (cg.extend ws n).emit [inst] = cg.extend (ws ++ [inst]) n := by simp only [Cg.extend, Cg.emit, List.append_assoc]
  rw [Exec.wp_bind, wp_cgEmit, hstate]
  exact h

/-- An emission that starts with a shift by a constant. -/
theorem wp_shiftImmNext {α : Type} {ws : List Word} {n amt : Nat} {op : Opcode} {dst src : Byte} {k : Unit → Emit α} {Q : α → Cg → Prop}
    {E : CgError → Cg → Prop} (h : Exec.wp (k ()) Q E (cg.extend
      (ws ++ [encI16 .movi cgRegScratch (BitVec.ofNat 16 amt)] ++ [encR op dst src cgRegScratch]) n)) :
    Exec.wp (cgShiftImm op dst src amt >>= k) Q E (cg.extend ws n) := by
  rw [Exec.wp_bind, cgShiftImm]
  exact wp_emitNext (wp_emitNext h)

/-- The next slot is one word up. -/
theorem valSlotOff_add_four (k : Nat) : cg.valSlotOff k + 4 = cg.valSlotOff (k + 1) := by
  have hfour : (4 : Word) = BitVec.ofNat 32 4 := rfl
  rw [Cg.valSlotOff, hfour, ← BitVec.ofNat_add, Cg.valSlotOff]
  congr 1
  omega

/-- So is its address. -/
theorem slotAddr_add_four (k : Nat) : slotAddr cg f k + 4 = slotAddr cg f (k + 1) := by
  unfold slotAddr
  omega

/-- The registers hold the words. -/
theorem HeldWide.words {r : Byte × Byte} {v : Val} (h : HeldWide cg' f' r (wideVal cg f v)) :
    f'.regs r.1 = (wideWords cg f v).1 ∧ f'.regs r.2 = (wideWords cg f v).2 := by
  have hlow := congrArg (low (w := 32)) h.val
  have hhigh := congrArg (high (w := 32)) h.val
  rw [low_append, wideVal, low_append] at hlow
  rw [high_append, wideVal, high_append] at hhigh
  exact ⟨hlow, hhigh⟩

/-- The words of a value are what they were. -/
theorem Prepares.wideWords_eq (h : Prepares img host cg f cg' f') (hok : cg.Ok) (v : Val) : wideWords cg' f' v = wideWords cg f v := by
  have hzero : f'.regs cg.zeroReg = f.regs cg.zeroReg := h.regs (Or.inr hok.zero)
  have hsp : f'.regs regSp = f.regs regSp := h.agrees.regs regSp (not_scratch_of_gt (Or.inr rfl))
  obtain ⟨ws, n, rfl, _⟩ := h.emitted
  have hlookup : Cg.lookup { cg with code := cg.code ++ ws, nextReg := n } v = cg.lookup v := rfl
  have haddr : ∀ k, slotAddr { cg with code := cg.code ++ ws, nextReg := n } f' k = slotAddr cg f k := fun k => slotAddr_of_sp hsp k
  simp only [wideWords, hlookup, haddr, h.agrees.heap, hzero]

/-- Wide values keep their value, while operands are prepared. -/
theorem Prepares.wideVal_eq (h : Prepares img host cg f cg' f') (hok : cg.Ok) (v : Val) : wideVal cg' f' v = wideVal cg f v := by
  rw [wideVal, h.wideWords_eq hok, wideVal]

/-- No slot is taken. -/
theorem Prepares.valSpillCount_eq (h : Prepares img host cg f cg' f') : cg'.valSpillCount = cg.valSpillCount := by
  obtain ⟨ws, n, rfl, _⟩ := h.emitted
  rfl

/-- The slots keep their offsets. -/
theorem Prepares.valSlotOff_eq (h : Prepares img host cg f cg' f') (k : Nat) : cg'.valSlotOff k = cg.valSlotOff k := by
  obtain ⟨ws, n, rfl, _⟩ := h.emitted
  rfl

/-- And their addresses. -/
theorem Prepares.slotAddr_eq (h : Prepares img host cg f cg' f') (k : Nat) : slotAddr cg' f' k = slotAddr cg f k := by
  rw [h.emitted.slotAddr_eq]
  exact slotAddr_of_sp (h.agrees.regs regSp (not_scratch_of_gt (Or.inr rfl))) k

variable (host) (hcode : img.code.length = img.codeCount.toNat)
include hcode

/-- A slot is loaded into a fresh register. -/
theorem wp_loadSlot (hok : cg.Ok) (hin : InFrame cg img f) {k : Nat} (hk : k < cg.valSpillCount) {α : Type} {m : Byte → Emit α}
    {Q : α → Cg → Prop} (hm : ∀ r cg' f', Prepares img host cg f cg' f' → f'.regs r = f.heap.word (slotAddr cg f k) →
      Held r cg'.nextReg → Exec.wp (m r) Q (fun e _ => e.OfOperand) cg') : Exec.wp (do
      let r ← cgAllocReg
      cgLdwSpOff r (cg.valSlotOff k)
      m r) Q (fun e _ => e.OfOperand) cg := by
  simp only [Exec.wp_bind, wp_cgAllocReg hok.pool, wp_cgLdwSpOff]
  refine ⟨fun _ => trivial, fun h => ?_⟩
  have hrun := runs_ldwSpOff host hcode (BitVec.ofNat 8 cg.nextReg) (inMemory_valSlotOff hok hin hk)
  rw [toNat_valSlotOff hok hin hk] at hrun
  have hag : f.AgreesOff (Scratch cg.nextReg) _ := (Frame.AgreesOff.setReg (f.regs regSp + cg.valSlotOff k) (Or.inl rfl)).trans
    (.setReg (f.heap.word (slotAddr cg f k)) (scratch_nextReg (Nat.le_refl _) h))
  refine hm _ _ _ ⟨⟨_, _, rfl, hrun⟩, hag, Nat.le_succ _, by simp only [Cg.emit]; omega⟩ (Frame.setReg_same ..) (Or.inl ?_)
  rw [toNat_nextReg h]
  exact Nat.lt_succ_self _

/-- `cg_i64_read` puts the words of a value into registers. -/
theorem wp_cgI64Read (hok : cg.Ok) (hin : InFrame cg img f) (v : Val) :
    Exec.wp (cgI64Read v) (GivesWide img host cg f (wideVal cg f v)) (fun e _ => e.OfOperand) cg := by
  unfold cgI64Read
  cases hconst : v.cgWideConstWords with
  | some words =>
    have hlookup : cg.lookup v = none := by
      cases v with
      | loc l => nomatch hconst
      | _ => rfl
    have hwords : wideWords cg f v = words := by simp only [wideWords, hlookup, hconst, Option.bind_none, Option.getD_some]
    rw [wideVal, hwords]
    dsimp only
    refine wp_operand (wp_cgConstReg (f := f) host hcode hok.pool words.1) fun lo cg₁ f₁ hprep₁ hlo hheldLo => ?_
    refine wp_operand (wp_cgConstReg (f := f₁) host hcode (hprep₁.ok hok).pool words.2) fun hi cg₂ f₂ hprep₂ hhi hheldHi => ?_
    rw [Exec.wp_pure, ← hlo, ← hhi, ← hprep₂.regs hheldLo]
    exact ⟨f₂, hprep₁.trans hcode hprep₂, rfl, hprep₂.held hheldLo, hheldHi⟩
  | none =>
    dsimp only
    rw [Exec.wp_bind, Exec.wp_get]
    by_cases hundef : v.isUndef = true
    · have hlookup : cg.lookup v = none := by
        cases v with
        | loc l => nomatch hundef
        | _ => rfl
      have hwords : wideWords cg f v = (f.regs cg.zeroReg, f.regs cg.zeroReg) := by
        simp only [wideWords, hlookup, hconst, Option.bind_none, Option.getD_none]
      rw [if_pos hundef, Exec.wp_pure, wideVal, hwords]
      exact ⟨f, .refl hok.next_le, rfl, Or.inr hok.zero, Or.inr hok.zero⟩
    · rw [if_neg hundef]
      cases hslot : (cg.lookup v).bind Home.i64Slot with
      | none => exact trivial
      | some slot =>
        obtain ⟨home, hhome, hi64⟩ := Option.bind_eq_some_iff.mp hslot
        have hk : slot + 1 < cg.valSpillCount := by
          cases v with
          | loc l => exact hok.wide_lt l home slot hhome hi64
          | _ => nomatch hhome
        have hwords : wideWords cg f v = (f.heap.word (slotAddr cg f slot), f.heap.word (slotAddr cg f (slot + 1))) := by
          simp only [wideWords, hslot]
        rw [wideVal, hwords]
        dsimp only
        refine wp_loadSlot host hcode hok hin (Nat.lt_of_succ_lt hk) fun lo cg₁ f₁ hprep₁ hlo hheldLo => ?_
        have hk₁ : slot + 1 < cg₁.valSpillCount := by rwa [hprep₁.valSpillCount_eq]
        rw [valSlotOff_add_four, ← hprep₁.valSlotOff_eq]
        refine wp_loadSlot host hcode (hprep₁.ok hok) (hprep₁.inFrame hin) hk₁ fun hi cg₂ f₂ hprep₂ hhi hheldHi => ?_
        rw [hprep₁.slotAddr_eq, hprep₁.agrees.heap] at hhi
        rw [Exec.wp_pure, ← hlo, ← hhi, ← hprep₂.regs hheldLo]
        exact ⟨f₂, hprep₁.trans hcode hprep₂, rfl, hprep₂.held hheldLo, hheldHi⟩

/-- What follows two operands in registers. -/
theorem wp_twoOperands (hok : cg.Ok) (hin : InFrame cg img f) {v v' : Val} {α : Type} {k : Byte → Byte → Emit α} {Q : α → Cg → Prop}
    (hk : ∀ a b cg' f', Prepares img host cg f cg' f' → f'.regs a = operandWord cg f v → f'.regs b = operandWord cg f v' →
      Held a cg'.nextReg → Held b cg'.nextReg → Exec.wp (k a b) Q (fun e _ => e.OfOperand) cg') : Exec.wp (do
      let a ← cgRegFor v
      let b ← cgRegFor v'
      k a b) Q (fun e _ => e.OfOperand) cg := by
  refine wp_operand (wp_cgRegFor host hcode hok hin v) fun a cg₁ f₁ hprep₁ ha hheld₁ => ?_
  refine wp_operand (wp_cgRegFor host hcode (hprep₁.ok hok) (hprep₁.inFrame hin) v') fun b cg₂ f₂ hprep₂ hb hheld₂ => ?_
  rw [hprep₁.operandWord_eq hok] at hb
  exact hk a b cg₂ f₂ (hprep₁.trans hcode hprep₂) ((hprep₂.regs hheld₁).trans ha) hb (hprep₂.held hheld₁) hheld₂

/-- What follows the words of two values in registers. -/
theorem wp_twoWide (hok : cg.Ok) (hin : InFrame cg img f) {v v' : Val} {α : Type} {k : Byte × Byte → Byte × Byte → Emit α}
    {Q : α → Cg → Prop} (hk : ∀ a b cg' f', Prepares img host cg f cg' f' → HeldWide cg' f' a (wideVal cg f v) →
      HeldWide cg' f' b (wideVal cg f v') → Exec.wp (k a b) Q (fun e _ => e.OfOperand) cg') : Exec.wp (do
      let a ← cgI64Read v
      let b ← cgI64Read v'
      k a b) Q (fun e _ => e.OfOperand) cg := by
  refine wp_wide (wp_cgI64Read host hcode hok hin v) fun a cg₁ f₁ hprep₁ ha => ?_
  refine wp_wide (wp_cgI64Read host hcode (hprep₁.ok hok) (hprep₁.inFrame hin) v') fun b cg₂ f₂ hprep₂ hb => ?_
  rw [hprep₁.wideVal_eq hok] at hb
  exact hk a b cg₂ f₂ (hprep₁.trans hcode hprep₂) (ha.later hprep₂) hb

end read

/-! ## StoresIn -/

/-- Running the code makes a frame of `f` that is `g` but for R254; `g` has the registers of `f`. -/
structure StoresIn (img : Image κ) (host : Host κ W) (cg : Cg) (f : Frame κ W) (cg' : Cg) (g : Frame κ W) : Prop where
  next : cg'.nextReg = cg.nextReg
  regs : g.regs = f.regs
  size : g.heap.size = f.heap.size
  run : ∃ f', Emitted img host cg cg' f f' ∧ g.AgreesOff OnlyR254 f'

/-- Running the code makes a frame of `f` that is `g` but for scratch registers. -/
def Leaves (img : Image κ) (host : Host κ W) (cg : Cg) (f g : Frame κ W) (cg' : Cg) : Prop :=
  cg'.Ok ∧ ∃ f', Emitted img host cg cg' f f' ∧ g.AgreesOff (Scratch cg.ssaRegHigh) f'

section stores

variable {img : Image κ} {host : Host κ W} {cg cg₁ cg' : Cg} {f f₁ g g₁ : Frame κ W}

/-- The same word stored on both sides. -/
theorem Frame.AgreesOff.setWord {S : Byte → Prop} (h : f.AgreesOff S g) (p : Nat) (v : Word) : (f.setWord p v).AgreesOff S (g.setWord p v) :=
  ⟨by rw [Frame.setWord_heap, Frame.setWord_heap, h.heap], h.imports, h.world, h.regs⟩

/-- The same wide value stored on both sides. -/
theorem Frame.AgreesOff.setWide {S : Byte → Prop} (h : f.AgreesOff S g) (p : Nat) (z : BitVec 64) :
    (f.setWide p z).AgreesOff S (g.setWide p z) := (h.setWord p _).setWord (p + 4) _

/-- Nothing is stored. -/
theorem StoresIn.refl : StoresIn img host cg f cg f := ⟨rfl, rfl, rfl, f, .refl, .refl _ f⟩

/-- A store keeps the offsets of the slots. -/
theorem StoresIn.valSlotOff_eq (h : StoresIn img host cg f cg' g) (k : Nat) : cg'.valSlotOff k = cg.valSlotOff k := by
  obtain ⟨_, ⟨ws, n, rfl, _⟩, _⟩ := h.run
  rfl

/-- Code that prepares the stores, then the stores. -/
theorem Leaves.of_stores (hcode : img.code.length = img.codeCount.toNat) (hok : cg.Ok) (hprep : Prepares img host cg f cg₁ f₁)
    (h : StoresIn img host cg₁ f₁ cg' g₁) (hg : g.AgreesOff (Scratch cg.nextReg) g₁) : Leaves img host cg f g cg' := by
  obtain ⟨f', hem, hag⟩ := h.run
  have hall := hprep.emitted.trans hcode hem
  have hag' : g.AgreesOff (Scratch cg.nextReg) f' := hg.trans (hag.mono fun r hr => hr.scratch _)
  refine ⟨hall.ok hok ?_ ?_, f', hall, hag'.mono fun r hr => hr.mono hok.high_le⟩
  · rw [h.next]
    exact Nat.le_trans hok.high_le hprep.next_ge
  · rw [h.next]
    exact hprep.next_le

variable (host) (hcode : img.code.length = img.codeCount.toNat)
include hcode

/-- A register is stored in a slot. -/
theorem wp_storeSlot (hok : cg.Ok) (hin : InFrame cg img f) (h : StoresIn img host cg f cg₁ g) {k : Nat} (hk : k < cg.valSpillCount)
    {s : Byte} (hs : s ≠ cgRegScratch) : Exec.wp (cgStwSpOff (cg.valSlotOff k) s)
      (fun _ cg₂ => StoresIn img host cg f cg₂ (g.setWord (slotAddr cg f k) (f.regs s))) (fun e _ => e.OfOperand) cg₁ := by
  obtain ⟨f', hem, hag⟩ := h.run
  have hsp : f'.regs regSp = f.regs regSp := (hag.regs regSp not_onlyR254_sp).trans (by rw [h.regs])
  have hin' : InFrame cg img f' := by
    refine ⟨?_, by rw [hsp]; exact hin.fits⟩
    rw [hag.heap, h.size]
    exact hin.size
  have hval : f'.regs s = f.regs s := (hag.regs s hs).trans (by rw [h.regs])
  have haddr : slotAddr cg f' k = slotAddr cg f k := slotAddr_of_sp hsp k
  rw [wp_cgStwSpOff]
  have hrun := runs_stwSpOff host hcode hs (inMemory_valSlotOff hok hin' hk)
  rw [toNat_valSlotOff hok hin' hk, haddr, hval] at hrun
  have hem' : Emitted img host cg₁ (cg₁.emit (stwSpOffWords (cg.valSlotOff k) s)) f' _ := .of_runs hrun
  refine ⟨h.next, h.regs, h.size, _, hem.trans hcode hem', ?_⟩
  have hr254 : f'.AgreesOff OnlyR254 (f'.setReg cgRegScratch (f'.regs regSp + cg.valSlotOff k)) := .setReg _ rfl
  exact (hag.trans hr254).setWord _ _

/-- A register is stored at an address in another. -/
theorem wp_storeWord (hin : InFrame cg img f) (h : StoresIn img host cg f cg₁ g) {a s : Byte} (ha : a ≠ cgRegScratch) (hs : s ≠ cgRegScratch)
    (hmem : (f.regs a).toNat + 4 ≤ img.memSize.toNat) : Exec.wp (cgEmit (encR .stw 0 a s))
      (fun _ cg₂ => StoresIn img host cg f cg₂ (g.setWord (f.regs a).toNat (f.regs s))) (fun e _ => e.OfOperand) cg₁ := by
  obtain ⟨f', hem, hag⟩ := h.run
  have haddr : f'.regs a = f.regs a := (hag.regs a ha).trans (by rw [h.regs])
  have hval : f'.regs s = f.regs s := (hag.regs s hs).trans (by rw [h.regs])
  have hsize : f'.heap.size = img.memSize.toNat := by
    rw [hag.heap, h.size]
    exact hin.size
  have hmem' : InMemory img f' (f'.regs a) := by
    refine ⟨hsize, ?_⟩
    rw [haddr, hsize]
    exact hmem
  rw [wp_cgEmit]
  have hrun := runs_stw (f := f') host hcode 0 a s hmem'
  rw [haddr, hval] at hrun
  exact ⟨h.next, h.regs, h.size, _, hem.trans hcode (.of_runs hrun), hag.setWord _ _⟩

/-- `cg_i64_write`. -/
theorem wp_cgI64Write (hok : cg.Ok) (hin : InFrame cg img f) (h : StoresIn img host cg f cg₁ g) {slot : Nat}
    (hk : slot + 1 < cg.valSpillCount) {lo hi : Byte} (hlo : lo ≠ cgRegScratch) (hhi : hi ≠ cgRegScratch) {vlo vhi : Word}
    (hvlo : f.regs lo = vlo) (hvhi : f.regs hi = vhi) : Exec.wp (cgI64Write slot lo hi)
      (fun _ cg₂ => StoresIn img host cg f cg₂ (g.setWide (slotAddr cg f slot) (vhi ++ vlo))) (fun e _ => e.OfOperand) cg₁ := by
  unfold cgI64Write
  rw [Exec.wp_bind, Exec.wp_get, Exec.wp_bind, h.valSlotOff_eq, valSlotOff_add_four]
  refine Exec.wp_mono ?_ (fun _ _ he => he) (wp_storeSlot host hcode hok hin h (Nat.lt_of_succ_lt hk) hlo)
  intro _ cg₂ h₂
  refine Exec.wp_mono ?_ (fun _ _ he => he) (wp_storeSlot host hcode hok hin h₂ hk hhi)
  intro _ cg₃ h₃
  rwa [hvlo, hvhi, ← slotAddr_add_four, ← setWide_append] at h₃

/-- The end of a lowering: two words that are in registers are written to the slots of the result. -/
theorem wp_writeResult (hok : cg.Ok) (hin : InFrame cg img f) (hprep : Prepares img host cg f cg₁ f₁) {slot : Nat}
    (hk : slot + 1 < cg.valSpillCount) {lo hi : Byte} {z : BitVec 64} (hr : HeldWide cg₁ f₁ (lo, hi) z) :
    Exec.wp (cgI64Write slot lo hi) (fun _ => Leaves img host cg f (f.setWide (slotAddr cg f slot) z)) (fun e _ => e.OfOperand) cg₁ := by
  have hk₁ : slot + 1 < cg₁.valSpillCount := by rwa [hprep.valSpillCount_eq]
  refine Exec.wp_mono ?_ (fun _ _ he => he) (wp_cgI64Write host hcode (hprep.ok hok) (hprep.inFrame hin) .refl hk₁
    (hr.held_lo.ne_r254 hprep.next_le) (hr.held_hi.ne_r254 hprep.next_le) rfl rfl)
  intro _ cg₂ h₂
  have hval : f₁.regs hi ++ f₁.regs lo = z := hr.val
  rw [hprep.slotAddr_eq, hval] at h₂
  exact .of_stores hcode hok hprep h₂ (hprep.agrees.setWide _ _)

end stores

end CronoVM
