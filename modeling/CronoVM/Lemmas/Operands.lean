import CronoVM.Lemmas.Emission

/-!
# Operands

What a value is at a state of the machine, by its home or as a constant, and that `cg_reg_for` puts it into a register. The scratch
registers are R254 and those above the next free one.
-/

namespace CronoVM

open Checked Ir

variable {κ W : Type}

/-! ## The stack frame -/

/-- What the code generator keeps in the emit phase: the pool is empty, homes are registers below `ssa_reg_high` or slots of the frame. -/
structure Cg.Ok (cg : Cg) : Prop where
  pool : cg.freeList = []
  zero : cg.zeroReg = cgRegZero
  high_le : cg.ssaRegHigh ≤ cg.nextReg
  next_le : cg.nextReg ≤ cgMaxEmitReg + 1
  reg_lt : ∀ l home, cg.home? l = some home → home.reg.toNat < cg.ssaRegHigh
  slot_lt : ∀ l home k, cg.home? l = some home → home.valSlot = some k → k < cg.valSpillCount
  wide_lt : ∀ l home k, cg.home? l = some home → home.i64Slot = some k → k + 1 < cg.valSpillCount
  frame : cg.allocaBytes + cg.spillBytes + cg.valSpillCount * 4 ≤ cg.frameBytes

/-- The homes are in order if all entries of the map are. -/
theorem Cg.Ok.of_map {cg : Cg} (hpool : cg.freeList = []) (hzero : cg.zeroReg = cgRegZero) (hhigh : cg.ssaRegHigh ≤ cg.nextReg)
    (hnext : cg.nextReg ≤ cgMaxEmitReg + 1) (hframe : cg.allocaBytes + cg.spillBytes + cg.valSpillCount * 4 ≤ cg.frameBytes)
    (hmap : ∀ e ∈ cg.map, e.2.reg.toNat < cg.ssaRegHigh ∧ e.2.valSlot.all (· < cg.valSpillCount) = true ∧
      e.2.i64Slot.all (· + 1 < cg.valSpillCount) = true) : cg.Ok := by
  have hentry : ∀ l home, cg.home? l = some home → home.reg.toNat < cg.ssaRegHigh ∧ home.valSlot.all (· < cg.valSpillCount) = true ∧
      home.i64Slot.all (· + 1 < cg.valSpillCount) = true := by
    intro l home h
    obtain ⟨e, he, rfl⟩ := Option.map_eq_some_iff.mp h
    exact hmap e (List.mem_of_find?_eq_some he)
  refine ⟨hpool, hzero, hhigh, hnext, fun l home h => (hentry l home h).1, fun l home k h hk => ?_, fun l home k h hk => ?_, hframe⟩
  · have hall := (hentry l home h).2.1
    rw [hk] at hall
    exact of_decide_eq_true hall
  · have hall := (hentry l home h).2.2
    rw [hk] at hall
    exact of_decide_eq_true hall

/-- The stack frame of the function lies in the memory of the image. -/
structure InFrame (cg : Cg) (img : Image κ) (f : Frame κ W) : Prop where
  size : f.heap.size = img.memSize.toNat
  fits : (f.regs regSp).toNat + cg.frameBytes ≤ img.memSize.toNat

/-- The address of value-spill slot `k`. -/
def slotAddr (cg : Cg) (f : Frame κ W) (k : Nat) : Nat := (f.regs regSp).toNat + (cg.allocaBytes + cg.spillBytes + k * 4)

section frame

variable {cg : Cg} {img : Image κ} {f : Frame κ W}

/-- A byte offset into the frame does not wrap. -/
theorem toNat_sp_add (hin : InFrame cg img f) {n : Nat} (hn : n ≤ cg.frameBytes) :
    (f.regs regSp + BitVec.ofNat 32 n).toNat = (f.regs regSp).toNat + n := by
  have hfits := hin.fits
  have hlt := img.memSize.isLt
  rw [BitVec.toNat_add, BitVec.toNat_ofNat]
  omega

/-- A word of the frame is in memory. -/
theorem inMemory_sp_add (hin : InFrame cg img f) {n : Nat} (hn : n + 4 ≤ cg.frameBytes) :
    InMemory img f (f.regs regSp + BitVec.ofNat 32 n) := by
  refine ⟨hin.size, ?_⟩
  rw [toNat_sp_add hin (by omega), hin.size]
  have := hin.fits
  omega

/-- A slot below the count ends inside the frame. -/
theorem slot_end_le (hok : cg.Ok) {k : Nat} (hk : k < cg.valSpillCount) :
    cg.allocaBytes + cg.spillBytes + k * 4 + 4 ≤ cg.frameBytes := by
  have := hok.frame
  omega

/-- The address of a slot does not wrap. -/
theorem toNat_valSlotOff (hok : cg.Ok) (hin : InFrame cg img f) {k : Nat} (hk : k < cg.valSpillCount) :
    (f.regs regSp + cg.valSlotOff k).toNat = slotAddr cg f k :=
  toNat_sp_add hin (by have := slot_end_le hok hk; omega)

/-- A slot below the count is in memory. -/
theorem inMemory_valSlotOff (hok : cg.Ok) (hin : InFrame cg img f) {k : Nat} (hk : k < cg.valSpillCount) :
    InMemory img f (f.regs regSp + cg.valSlotOff k) :=
  inMemory_sp_add hin (slot_end_le hok hk)

end frame

/-! ## Scratch registers -/

/-- R254 and the registers from `lo` to R252. -/
def Scratch (lo : Nat) (r : Byte) : Prop := r = cgRegScratch ∨ lo ≤ r.toNat ∧ r.toNat ≤ cgMaxEmitReg

theorem Scratch.mono {lo lo' : Nat} {r : Byte} (h : lo ≤ lo') (hr : Scratch lo' r) : Scratch lo r :=
  hr.imp_right fun h' => ⟨Nat.le_trans h h'.1, h'.2⟩

/-- A register below is none of the scratch ones. -/
theorem not_scratch_of_lt {lo : Nat} {r : Byte} (hlo : lo ≤ cgMaxEmitReg + 1) (hr : r.toNat < lo) : ¬Scratch lo r := by
  rintro (rfl | h)
  · have h254 : cgRegScratch.toNat = 254 := rfl
    have h252 : cgMaxEmitReg = 252 := rfl
    omega
  · omega

/-- The zero register and SP are none of them. -/
theorem not_scratch_of_gt {lo : Nat} {r : Byte} (hr : r = cgRegZero ∨ r = regSp) : ¬Scratch lo r := by
  rcases hr with rfl | rfl <;> rintro (h | h) <;> revert h <;> simp [cgRegZero, cgRegScratch, regSp, cgMaxEmitReg]

/-- A register in use, or the zero register. -/
def Held (r : Byte) (lo : Nat) : Prop := r.toNat < lo ∨ r = cgRegZero

/-- A register that holds an operand is none of them. -/
theorem Held.not_scratch {r : Byte} {lo : Nat} (h : Held r lo) (hlo : lo ≤ cgMaxEmitReg + 1) : ¬Scratch lo r := by
  rcases h with hlt | rfl
  · exact not_scratch_of_lt hlo hlt
  · exact not_scratch_of_gt (Or.inl rfl)

/-- The frames agree but for registers in `S` and the pc. -/
structure Frame.AgreesOff (S : Byte → Prop) (f g : Frame κ W) : Prop where
  heap : g.heap = f.heap
  imports : g.importFns = f.importFns
  world : g.world = f.world
  regs : ∀ r, ¬S r → g.regs r = f.regs r

namespace Frame.AgreesOff

variable {S T : Byte → Prop} {f g h : Frame κ W}

theorem refl (S : Byte → Prop) (f : Frame κ W) : f.AgreesOff S f := ⟨rfl, rfl, rfl, fun _ _ => rfl⟩

theorem trans (hfg : f.AgreesOff S g) (hgh : g.AgreesOff S h) : f.AgreesOff S h :=
  ⟨hgh.heap.trans hfg.heap, hgh.imports.trans hfg.imports, hgh.world.trans hfg.world,
    fun r hr => (hgh.regs r hr).trans (hfg.regs r hr)⟩

theorem mono (hST : ∀ r, S r → T r) (hfg : f.AgreesOff S g) : f.AgreesOff T g :=
  ⟨hfg.heap, hfg.imports, hfg.world, fun r hr => hfg.regs r fun hs => hr (hST r hs)⟩

theorem setReg {r : Byte} (v : Word) (hr : S r) : f.AgreesOff S (f.setReg r v) :=
  ⟨rfl, rfl, rfl, fun r' hr' => Frame.setReg_of_ne f v (by rintro rfl; exact hr' hr)⟩

end Frame.AgreesOff

/-! ## Emission with its run -/

/-- The code generator has added code, and running this code makes `f'` of `f`. -/
def Emitted (img : Image κ) (host : Host κ W) (cg cg' : Cg) (f f' : Frame κ W) : Prop :=
  ∃ ws n, cg' = { cg with code := cg.code ++ ws, nextReg := n } ∧ RunsTo img host ws f f'

namespace Emitted

variable {img : Image κ} {host : Host κ W} {cg cg' cg'' : Cg} {f f' f'' : Frame κ W}

theorem refl : Emitted img host cg cg f f := ⟨[], cg.nextReg, by rw [List.append_nil], RunsTo.nil⟩

theorem trans (hcode : img.code.length = img.codeCount.toNat) (h : Emitted img host cg cg' f f') (h' : Emitted img host cg' cg'' f' f'') :
    Emitted img host cg cg'' f f'' := by
  obtain ⟨ws, n, rfl, hws⟩ := h
  obtain ⟨us, m, rfl, hus⟩ := h'
  exact ⟨ws ++ us, m, by simp only [List.append_assoc], hws.append hcode hus⟩

theorem of_runs {ws : List Word} (h : RunsTo img host ws f f') : Emitted img host cg (cg.emit ws) f f' := ⟨ws, cg.nextReg, rfl, h⟩

/-- Only the registers in use have changed. -/
theorem alloc (n : Nat) : Emitted img host cg { cg with nextReg := n } f f := ⟨[], n, by rw [List.append_nil], RunsTo.nil⟩

theorem lookup (h : Emitted img host cg cg' f f') (v : Val) : cg'.lookup v = cg.lookup v := by
  obtain ⟨ws, n, rfl, _⟩ := h
  rfl

/-- What the code generator keeps, it keeps. -/
theorem ok (h : Emitted img host cg cg' f f') (hok : cg.Ok) (hlo : cg.ssaRegHigh ≤ cg'.nextReg) (hhi : cg'.nextReg ≤ cgMaxEmitReg + 1) :
    cg'.Ok := by
  obtain ⟨ws, n, rfl, _⟩ := h
  exact { hok with high_le := hlo, next_le := hhi }

theorem slotAddr_eq (h : Emitted img host cg cg' f f') (g : Frame κ W) (k : Nat) : slotAddr cg' g k = slotAddr cg g k := by
  obtain ⟨ws, n, rfl, _⟩ := h
  rfl

end Emitted

/-- The stack frame stays where it is. -/
theorem InFrame.of_agrees {cg : Cg} {img : Image κ} {S : Byte → Prop} {f g : Frame κ W} (hin : InFrame cg img f)
    (h : f.AgreesOff S g) (hsp : ¬S regSp) : InFrame cg img g := by
  refine ⟨?_, ?_⟩
  · rw [h.heap]
    exact hin.size
  · rw [h.regs regSp hsp]
    exact hin.fits

theorem InFrame.of_emitted {img : Image κ} {host : Host κ W} {cg cg' : Cg} {f f' g : Frame κ W} (hin : InFrame cg img g)
    (h : Emitted img host cg cg' f f') : InFrame cg' img g := by
  obtain ⟨ws, n, rfl, _⟩ := h
  exact ⟨hin.size, hin.fits⟩

/-! ## Values -/

/-- What a home holds. -/
def homeWord (cg : Cg) (f : Frame κ W) (home : Home) : Word :=
  match home.valSlot with
  | some k => f.heap.word (slotAddr cg f k)
  | none => f.regs home.reg

/-- The word a constant is; `zero` is what the zero register holds. -/
def constWord (cg : Cg) (zero : Word) : Const → Word
  | .aliasOf aliasee => constWord cg zero aliasee
  | .int width bits => BitVec.ofInt 32 (constIntImm width bits)
  | .float bits => bits
  | .undef _ => zero
  | .global id => ((cg.globals.find? fun e => e.1 = id).map Prod.snd).getD 0
  | .func id => BitVec.ofNat 32 (((cg.funcs.idxOf? id).getD 0 + 1) * 2)
  | .cast c _ => constWord cg zero c
  | .gep base off => constWord cg zero base + BitVec.ofInt 32 (off.getD 0)
  | .null | .double _ _ | .expr _ | .other _ => 0

/-- The word a value is: what its home holds, or the constant. -/
def operandWord (cg : Cg) (f : Frame κ W) : Val → Word
  | .loc l => ((cg.home? l).map (homeWord cg f)).getD 0
  | .const c => constWord cg (f.regs cg.zeroReg) c
  | .block _ => 0

/-- The two words of a 64-bit value; of `undef`, what the zero register holds. -/
def wideWords (cg : Cg) (f : Frame κ W) (sval : Val) : Word × Word :=
  match (cg.lookup sval).bind Home.i64Slot with
  | some s => (f.heap.word (slotAddr cg f s), f.heap.word (slotAddr cg f (s + 1)))
  | none => sval.cgWideConstWords.getD (f.regs cg.zeroReg, f.regs cg.zeroReg)

/-- Neither homes nor constants depend on the code and on the registers in use. -/
theorem operandWord_emit (cg : Cg) (code : List Word) (n : Nat) (f : Frame κ W) (v : Val) :
    operandWord { cg with code := code, nextReg := n } f v = operandWord cg f v := by
  cases v with
  | loc l => rfl
  | block id => rfl
  | const c =>
    simp only [operandWord]
    induction c with
    | aliasOf aliasee ih => exact ih
    | cast c ty ih => exact ih
    | gep base off ih =>
      simp only [constWord]
      rw [ih]
    | _ => rfl

/-- Emission changes no value. -/
theorem Emitted.operandWord_eq {img : Image κ} {host : Host κ W} {cg cg' : Cg} {f f' : Frame κ W} (h : Emitted img host cg cg' f f')
    (g : Frame κ W) (v : Val) : operandWord cg' g v = operandWord cg g v := by
  obtain ⟨ws, n, rfl, _⟩ := h
  exact operandWord_emit cg _ n g v

/-! ## Operands in registers -/

/-- The errors of `cg_reg_for`. -/
def CgError.OfOperand : CgError → Prop
  | .phiNotAllocated | .tooManyPhiMoves | .widePhiSource | .phiReadyOverflow => False
  | _ => True

/-- Code that leaves `w` in a register: scratch registers change, and the register is not one that is still free. -/
def GivesReg (img : Image κ) (host : Host κ W) (cg : Cg) (f : Frame κ W) (w : Word) (r : Byte) (cg' : Cg) : Prop :=
  ∃ f', Emitted img host cg cg' f f' ∧ f.AgreesOff (Scratch cg.nextReg) f' ∧ cg.nextReg ≤ cg'.nextReg ∧
    cg'.nextReg ≤ cgMaxEmitReg + 1 ∧ f'.regs r = w ∧ (r.toNat < cg'.nextReg ∨ r = cgRegZero)

/-- A register that is given stays as it is while later scratch registers change. -/
theorem GivesReg.stable {w : Word} {r : Byte} {cg' : Cg} {f' g : Frame κ W}
    (hr : r.toNat < cg'.nextReg ∨ r = cgRegZero)
    (hnext : cg'.nextReg ≤ cgMaxEmitReg + 1) (hg : f'.AgreesOff (Scratch cg'.nextReg) g) (hw : f'.regs r = w) : g.regs r = w := by
  rw [hg.regs r ?_, hw]
  rcases hr with hlt | rfl
  · exact not_scratch_of_lt hnext hlt
  · exact not_scratch_of_gt (Or.inl rfl)

section operands

variable {img : Image κ} {host : Host κ W} {cg : Cg} {f : Frame κ W}

/-- `cg_alloc_reg` with an empty pool gives the next register. -/
theorem wp_cgAllocReg {Q : Byte → Cg → Prop} {E : CgError → Cg → Prop} (hpool : cg.freeList = []) : Exec.wp cgAllocReg Q E cg ↔
    (cg.nextReg > cgMaxEmitReg → E .scratchExhausted cg) ∧
      (¬cg.nextReg > cgMaxEmitReg → Q (BitVec.ofNat 8 cg.nextReg) { cg with nextReg := cg.nextReg + 1 }) := by
  simp [cgAllocReg, hpool]

/-- The next register has the number of the counter. -/
theorem toNat_nextReg {n : Nat} (h : ¬n > cgMaxEmitReg) : (BitVec.ofNat 8 n).toNat = n := by
  have h252 : cgMaxEmitReg = 252 := rfl
  rw [BitVec.toNat_ofNat, Nat.mod_eq_of_lt (by omega)]

/-- It is a scratch register. -/
theorem scratch_nextReg {lo n : Nat} (hlo : lo ≤ n) (h : ¬n > cgMaxEmitReg) : Scratch lo (BitVec.ofNat 8 n) := by
  refine Or.inr ⟨?_, ?_⟩ <;> rw [toNat_nextReg h] <;> omega

/-- It is not the one of an operand. -/
theorem Held.ne_scratch {r : Byte} {lo k : Nat} (h : Held r lo) (hk : ¬lo + k > cgMaxEmitReg) : r ≠ BitVec.ofNat 8 (lo + k) := by
  rintro rfl
  exact h.not_scratch (by omega) (scratch_nextReg (Nat.le_add_right _ _) hk)

/-- Code that uses scratch registers and then writes a fresh register. -/
theorem GivesReg.of_runs_via {f₁ : Frame κ W} {v : Word} {ws : List Word} (hroom : ¬cg.nextReg > cgMaxEmitReg)
    (hag : f.AgreesOff (Scratch cg.nextReg) f₁) (h : RunsTo img host ws f (f₁.setReg (BitVec.ofNat 8 cg.nextReg) v)) :
    GivesReg img host cg f v (BitVec.ofNat 8 cg.nextReg) (cg.alloc.emit ws) := by
  have hnext : cg.nextReg < cgMaxEmitReg + 1 := Nat.lt_succ_of_le (Nat.le_of_not_gt hroom)
  refine ⟨_, ⟨_, _, rfl, h⟩, hag.trans (.setReg v (scratch_nextReg (Nat.le_refl _) hroom)), Nat.le_succ _, hnext, Frame.setReg_same ..,
    Or.inl ?_⟩
  rw [toNat_nextReg hroom]
  exact Nat.lt_succ_self _

/-- Code that ends with the instruction that writes a fresh register. -/
theorem GivesReg.of_runs {v : Word} {ws : List Word} (hroom : ¬cg.nextReg > cgMaxEmitReg)
    (h : RunsTo img host ws f (f.setReg (BitVec.ofNat 8 cg.nextReg) v)) :
    GivesReg img host cg f v (BitVec.ofNat 8 cg.nextReg) (cg.alloc.emit ws) :=
  .of_runs_via hroom (.refl _ f) h

variable (host) (hcode : img.code.length = img.codeCount.toNat)
include hcode

/-- A constant word in a fresh register. -/
theorem wp_cgConstReg (hpool : cg.freeList = []) (imm : Word) :
    Exec.wp (cgConstReg imm) (GivesReg img host cg f imm) (fun e _ => e.OfOperand) cg := by
  simp only [cgConstReg, Exec.wp_bind, wp_cgAllocReg hpool, wp_cgEmitLoadConst32, Exec.wp_pure]
  exact ⟨fun _ => trivial, fun h => .of_runs h (runs_loadConst32 host hcode _ imm)⟩

/-- Two registers are added into a fresh one. -/
theorem wp_addReg (hpool : cg.freeList = []) (a b : Byte) : Exec.wp (do
      let r ← cgAllocReg
      cgEmit (encR .add r a b)
      pure r) (GivesReg img host cg f (f.regs a + f.regs b)) (fun e _ => e.OfOperand) cg := by
  simp only [Exec.wp_bind, wp_cgAllocReg hpool, wp_cgEmit, Exec.wp_pure]
  exact ⟨fun _ => trivial, fun h => .of_runs h (runs_add host hcode _ a b)⟩

/-- A constant is put into a register. -/
theorem wp_cgRegForConst (c : Const) (hpool : cg.freeList = []) (hzero : cg.zeroReg = cgRegZero)
    (hnext : cg.nextReg ≤ cgMaxEmitReg + 1) :
    Exec.wp (cgRegForConst c) (GivesReg img host cg f (constWord cg (f.regs cg.zeroReg) c)) (fun e _ => e.OfOperand) cg := by
  induction c generalizing f with
  | aliasOf aliasee ih => exact ih
  | int width bits =>
    simp only [cgRegForConst, Exec.wp_bind, Exec.wp_stopIf]
    exact ⟨fun _ => trivial, fun _ => wp_cgConstReg host hcode hpool _⟩
  | float bits => exact wp_cgConstReg host hcode hpool _
  | double lo hi => exact trivial
  | null =>
    simp only [cgRegForConst, Exec.wp_bind, wp_cgAllocReg hpool, wp_cgEmit, Exec.wp_pure]
    exact ⟨fun _ => trivial, fun h => .of_runs h (runs_movi host hcode _ 0)⟩
  | undef ty => exact ⟨f, .refl, .refl _ f, Nat.le_refl _, hnext, rfl, Or.inr hzero⟩
  | global id =>
    simp only [cgRegForConst, Exec.wp_bind, Exec.wp_get]
    cases hfind : cg.globals.find? fun e => decide (e.1 = id) with
    | none => exact trivial
    | some e =>
      have hconst := wp_cgConstReg (f := f) host hcode hpool e.2
      simpa only [constWord, hfind, Option.map_some, Option.getD_some] using hconst
  | func id =>
    simp only [cgRegForConst, Exec.wp_bind, Exec.wp_get]
    cases hidx : cg.funcs.idxOf? id with
    | none => exact trivial
    | some fidx =>
      have hconst := wp_cgConstReg (f := f) host hcode hpool (BitVec.ofNat 32 ((fidx + 1) * 2))
      simpa only [constWord, hidx, Option.getD_some] using hconst
  | cast c ty ih => exact ih
  | gep base off ih =>
    cases off with
    | none => exact trivial
    | some off =>
      rw [cgRegForConst, Exec.wp_bind]
      refine Exec.wp_mono ?_ (fun _ _ h => h) (ih (f := f))
      rintro b cg₁ ⟨f₁, hem₁, hag₁, hle₁, hnext₁, hval₁, hstable₁⟩
      by_cases hoff : off = 0
      · rw [if_pos hoff, Exec.wp_pure]
        refine ⟨f₁, hem₁, hag₁, hle₁, hnext₁, ?_, hstable₁⟩
        simp [constWord, hval₁, hoff]
      · rw [if_neg hoff, Exec.wp_bind, Exec.wp_stopIf]
        refine ⟨fun _ => trivial, fun _ => ?_⟩
        have hpool₁ : cg₁.freeList = [] := by
          obtain ⟨_, _, rfl, _⟩ := hem₁
          exact hpool
        rw [Exec.wp_bind]
        refine Exec.wp_mono ?_ (fun _ _ h => h) (wp_cgConstReg (f := f₁) host hcode hpool₁ (BitVec.ofInt 32 off))
        rintro offR cg₂ ⟨f₂, hem₂, hag₂, hle₂, hnext₂, hval₂, _⟩
        have hpool₂ : cg₂.freeList = [] := by
          obtain ⟨_, _, rfl, _⟩ := hem₂
          exact hpool₁
        have hb : f₂.regs b = constWord cg (f.regs cg.zeroReg) base := GivesReg.stable hstable₁ hnext₁ hag₂ hval₁
        refine Exec.wp_mono ?_ (fun _ _ h => h) (wp_addReg (f := f₂) host hcode hpool₂ b offR)
        rintro sumR cg₃ ⟨f₃, hem₃, hag₃, hle₃, hnext₃, hval₃, hstable₃⟩
        have hag₂' := hag₂.mono fun r hr => hr.mono hle₁
        have hag₃' := hag₃.mono fun r hr => hr.mono (Nat.le_trans hle₁ hle₂)
        refine ⟨f₃, (hem₁.trans hcode hem₂).trans hcode hem₃, (hag₁.trans hag₂').trans hag₃', by omega, hnext₃, ?_, hstable₃⟩
        simp only [constWord, Option.getD_some, hval₃, hb, hval₂]
  | expr ty => exact trivial
  | other ty => exact trivial

/-- `cg_reg_for` puts a value into a register. -/
theorem wp_cgRegFor (hok : cg.Ok) (hin : InFrame cg img f) (v : Val) :
    Exec.wp (cgRegFor v) (GivesReg img host cg f (operandWord cg f v)) (fun e _ => e.OfOperand) cg := by
  unfold cgRegFor
  rw [Exec.wp_bind, Exec.wp_get]
  cases v with
  | block id => exact trivial
  | const c => exact wp_cgRegForConst host hcode c hok.pool hok.zero hok.next_le
  | loc l =>
    simp only [Cg.lookup, operandWord]
    cases hhome : cg.home? l with
    | none => exact trivial
    | some home =>
      simp only [Option.map_some, Option.getD_some, homeWord]
      cases hslot : home.valSlot with
      | none =>
        have hlt := hok.reg_lt l home hhome
        exact ⟨f, .refl, .refl _ f, Nat.le_refl _, hok.next_le, rfl, Or.inl (Nat.lt_of_lt_of_le hlt hok.high_le)⟩
      | some k =>
        have hk := hok.slot_lt l home k hhome hslot
        simp only [cgReloadSpilled, Exec.wp_bind, wp_cgAllocReg hok.pool, Exec.wp_get, wp_cgLdwSpOff, Exec.wp_pure]
        refine ⟨fun _ => trivial, fun h => ?_⟩
        have hrun := runs_ldwSpOff host hcode (BitVec.ofNat 8 cg.nextReg) (inMemory_valSlotOff hok hin hk)
        rw [toNat_valSlotOff hok hin hk] at hrun
        exact .of_runs_via h (.setReg _ (Or.inl rfl)) hrun

end operands

/-! ## What is rejected -/

/-- An `int32_t`. -/
def FitsInt32 (n : Int) : Prop := -2147483648 ≤ n ∧ n ≤ 2147483647

theorem not_fitsInt32 {n : Int} (h : n < -2147483648 ∨ n > 2147483647) : ¬FitsInt32 n := by
  unfold FitsInt32
  omega

/-- The registers a constant takes. -/
def Ir.Const.regsTaken : Const → Nat
  | .aliasOf aliasee => aliasee.regsTaken
  | .cast c _ => c.regsTaken
  | .gep base off => if off = some 0 then base.regsTaken else base.regsTaken + 2
  | .undef _ => 0
  | _ => 1

/-- The registers `cg_reg_for` takes for a value: none for one that has a register. -/
def Cg.regsTaken (cg : Cg) (v : Val) : Nat :=
  match cg.lookup v with
  | some home => if home.valSlot.isSome then 1 else 0
  | none =>
    match v with
    | .const c => c.regsTaken
    | _ => 0

/-- Fewer than `n` registers are left. -/
def Cg.Lacks (cg : Cg) (n : Nat) : Prop := cgMaxEmitReg + 1 < cg.nextReg + n

/-- There is no register for the constant, and the error says why. -/
inductive Cg.RejectsConst (cg : Cg) : Const → CgError → Prop where
  | aliasOf {c : Const} {e : CgError} (h : cg.RejectsConst c e) : cg.RejectsConst (.aliasOf c) e
  | cast {c : Const} {ty : Ty} {e : CgError} (h : cg.RejectsConst c e) : cg.RejectsConst (.cast c ty) e
  | int {width bits : Nat} (h : ¬FitsInt32 (constIntImm width bits)) : cg.RejectsConst (.int width bits) .constTooWide
  | double {lo hi : Word} : cg.RejectsConst (.double lo hi) .nonFloatConstant
  | global {id : Nat} (h : ∀ e ∈ cg.globals, e.1 ≠ id) : cg.RejectsConst (.global id) .globalNotInLayout
  | func {id : Nat} (h : id ∉ cg.funcs) : cg.RejectsConst (.func id) .funcNotDefined
  | gepBase {base : Const} {off : Int} {e : CgError} (h : cg.RejectsConst base e) : cg.RejectsConst (.gep base (some off)) e
  | gepNone {base : Const} : cg.RejectsConst (.gep base none) .badConstGep
  | gepOff {base : Const} {off : Int} (h : ¬FitsInt32 off) : cg.RejectsConst (.gep base (some off)) .constGepTooWide
  | expr {ty : Ty} : cg.RejectsConst (.expr ty) .badConstExpr
  | other {ty : Ty} : cg.RejectsConst (.other ty) .noRegister

/-- There is no register for the value: it has no home, and it is a constant that is rejected, or no constant. -/
def Cg.Rejects (cg : Cg) (v : Val) (e : CgError) : Prop :=
  cg.lookup v = none ∧
    match v with
    | .const c => cg.RejectsConst c e
    | _ => e = .noRegister

/-- Homes, globals and functions are what they were. -/
structure Cg.SameTables (cg cg' : Cg) : Prop where
  map : cg'.map = cg.map
  globals : cg'.globals = cg.globals
  funcs : cg'.funcs = cg.funcs

namespace Cg.SameTables

variable {cg cg' : Cg}

/-- The code of an operand changes no table. -/
theorem of_emitted {img : Image κ} {host : Host κ W} {f f' : Frame κ W} (h : Emitted img host cg cg' f f') : cg.SameTables cg' := by
  obtain ⟨ws, n, rfl, _⟩ := h
  exact ⟨rfl, rfl, rfl⟩

theorem lookup (h : cg.SameTables cg') (v : Val) : cg'.lookup v = cg.lookup v := by
  cases v with
  | loc l =>
    simp only [Cg.lookup, Cg.home?]
    rw [h.map]
  | block id => rfl
  | const c => rfl

/-- A value takes as many registers later on. -/
theorem regsTaken (h : cg.SameTables cg') (v : Val) : cg'.regsTaken v = cg.regsTaken v := by
  unfold Cg.regsTaken
  rw [h.lookup]

/-- A constant is rejected as it would have been before. -/
theorem rejectsConst (h : cg.SameTables cg') {c : Const} {e : CgError} (hrej : cg'.RejectsConst c e) : cg.RejectsConst c e := by
  induction hrej with
  | aliasOf _ ih => exact .aliasOf ih
  | cast _ ih => exact .cast ih
  | int hwide => exact .int hwide
  | double => exact .double
  | global hno => exact .global (h.globals ▸ hno)
  | func hno => exact .func (h.funcs ▸ hno)
  | gepBase _ ih => exact .gepBase ih
  | gepNone => exact .gepNone
  | gepOff hwide => exact .gepOff hwide
  | expr => exact .expr
  | other => exact .other

/-- So is a value. -/
theorem rejects (h : cg.SameTables cg') {v : Val} {e : CgError} (hrej : cg'.Rejects v e) : cg.Rejects v e := by
  obtain ⟨hnone, hwhy⟩ := hrej
  refine ⟨(h.lookup v).symm.trans hnone, ?_⟩
  cases v with
  | loc l => exact hwhy
  | block id => exact hwhy
  | const c => exact h.rejectsConst hwhy

end Cg.SameTables

section rejected

variable {cg : Cg}

/-- Fewer registers than needed are fewer than a larger number. -/
theorem Cg.Lacks.mono {n m : Nat} (h : cg.Lacks n) (hle : n ≤ m) : cg.Lacks m := Nat.lt_of_lt_of_le h (Nat.add_le_add_left hle _)

/-- Registers that were taken before are no longer left. -/
theorem Cg.Lacks.before {cg' : Cg} {n k : Nat} (h : cg'.Lacks n) (hle : cg'.nextReg ≤ cg.nextReg + k) : cg.Lacks (k + n) := by
  unfold Cg.Lacks at h ⊢
  omega

/-- The emission stops with a reason in `Why`, or because fewer than `n` registers are left. -/
def Cg.Stops (cg : Cg) (Why : CgError → Prop) (n : Nat) (e : CgError) (_ : Cg) : Prop :=
  Why e ∨ e = .scratchExhausted ∧ cg.Lacks n

theorem Cg.Stops.mono {Why Why' : CgError → Prop} {n m : Nat} {e : CgError} {t : Cg} (h : cg.Stops Why n e t)
    (hwhy : Why e → Why' e) (hle : n ≤ m) : cg.Stops Why' m e t :=
  h.imp hwhy fun hfull => ⟨hfull.1, hfull.2.mono hle⟩

/-- What a later part stops with. -/
theorem Cg.Stops.before {cg' : Cg} {Why Why' : CgError → Prop} {n k m : Nat} {e : CgError} {t : Cg} (h : cg'.Stops Why n e t)
    (hnext : cg'.nextReg ≤ cg.nextReg + k) (hwhy : Why e → Why' e) (hle : k + n ≤ m) : cg.Stops Why' m e t :=
  h.imp hwhy fun hfull => ⟨hfull.1, (hfull.2.before hnext).mono hle⟩

/-- The emission takes at most `k` registers, and stops for nothing but `Why` or the lack of so many. -/
def Takes {α : Type} (m : Emit α) (k : Nat) (Why : CgError → Prop) (cg : Cg) : Prop :=
  Exec.wp m (fun _ cg' => cg'.freeList = [] ∧ cg'.nextReg ≤ cg.nextReg + k) (cg.Stops Why k) cg

/-- `cg_alloc_reg` takes one register. -/
theorem takes_cgAllocReg (hpool : cg.freeList = []) : Takes cgAllocReg 1 (fun _ => False) cg := by
  refine (wp_cgAllocReg hpool).mpr ⟨fun hfull => Or.inr ⟨rfl, ?_⟩, fun _ => ⟨hpool, Nat.le_refl _⟩⟩
  exact Nat.add_lt_add_right hfull 1

/-- A constant in a register takes this register. -/
theorem takes_cgConstReg (hpool : cg.freeList = []) (imm : Word) : Takes (cgConstReg imm) 1 (fun _ => False) cg := by
  unfold Takes cgConstReg
  rw [Exec.wp_bind]
  refine Exec.wp_mono (fun r cg' h => ?_) (fun _ _ he => he) (takes_cgAllocReg hpool)
  rw [Exec.wp_bind, wp_cgEmitLoadConst32]
  exact h

/-- A constant is rejected for what it is, or where fewer registers are left than it takes. -/
theorem takes_cgRegForConst (hpool : cg.freeList = []) (c : Const) :
    Takes (cgRegForConst c) c.regsTaken (cg.RejectsConst c) cg := by
  have hone : ∀ {c : Const} {imm : Word}, Takes (cgConstReg imm) 1 (cg.RejectsConst c) cg := fun {_ imm} =>
    Exec.wp_mono (fun _ _ h => h) (fun _ _ he => he.imp_left False.elim) (takes_cgConstReg hpool imm)
  induction c with
  | aliasOf aliasee ih => exact Exec.wp_mono (fun _ _ h => h) (fun _ _ he => he.imp_left .aliasOf) ih
  | cast c ty ih => exact Exec.wp_mono (fun _ _ h => h) (fun _ _ he => he.imp_left .cast) ih
  | int width bits =>
    unfold Takes
    rw [cgRegForConst, Exec.wp_bind, Exec.wp_stopIf]
    exact ⟨fun hwide => Or.inl (.int (not_fitsInt32 hwide)), fun _ => hone⟩
  | float bits => exact hone
  | double lo hi => exact Or.inl .double
  | null =>
    unfold Takes
    rw [cgRegForConst, Exec.wp_bind]
    refine Exec.wp_mono (fun r cg' h => ?_) (fun _ _ he => he.imp_left False.elim) (takes_cgAllocReg hpool)
    rw [Exec.wp_bind, wp_cgEmit]
    exact h
  | undef ty => exact ⟨hpool, Nat.le_refl _⟩
  | global id =>
    unfold Takes
    rw [cgRegForConst, Exec.wp_bind, Exec.wp_get]
    cases hfind : cg.globals.find? fun e => decide (e.1 = id) with
    | none => exact Or.inl (.global fun e he => by simpa using List.find?_eq_none.mp hfind e he)
    | some e => exact hone
  | func id =>
    unfold Takes
    rw [cgRegForConst, Exec.wp_bind, Exec.wp_get]
    cases hidx : cg.funcs.idxOf? id with
    | none => exact Or.inl (.func (List.idxOf?_eq_none_iff.mp hidx))
    | some fidx => exact hone
  | gep base off ih =>
    cases off with
    | none => exact Or.inl .gepNone
    | some off =>
      have hbase : base.regsTaken ≤ (Const.gep base (some off)).regsTaken := by
        rw [Ir.Const.regsTaken]
        split <;> omega
      unfold Takes
      rw [cgRegForConst, Exec.wp_bind]
      refine Exec.wp_mono (fun b cg₁ h₁ => ?_) (fun _ _ he => he.mono .gepBase hbase) ih
      obtain ⟨hpool₁, hnext₁⟩ := h₁
      by_cases hoff : off = 0
      · rw [if_pos hoff]
        exact ⟨hpool₁, Nat.le_trans hnext₁ (Nat.add_le_add_left hbase _)⟩
      · have htwo : (Const.gep base (some off)).regsTaken = base.regsTaken + (1 + 1) := by
          rw [Ir.Const.regsTaken, if_neg fun h => hoff (Option.some.inj h)]
        rw [if_neg hoff, Exec.wp_bind, Exec.wp_stopIf, htwo]
        refine ⟨fun hwide => Or.inl (.gepOff (not_fitsInt32 hwide)), fun _ => ?_⟩
        rw [Exec.wp_bind]
        refine Exec.wp_mono (fun offR cg₂ h₂ => ?_) (fun _ _ he => ?_) (takes_cgConstReg hpool₁ _)
        · obtain ⟨hpool₂, hnext₂⟩ := h₂
          rw [Exec.wp_bind]
          refine Exec.wp_mono (fun sumR cg₃ h₃ => ?_) (fun _ _ he => ?_) (takes_cgAllocReg hpool₂)
          · rw [Exec.wp_bind, wp_cgEmit]
            refine ⟨h₃.1, ?_⟩
            have hnext₃ : (cg₃.emit [encR .add sumR b offR]).nextReg ≤ cg₂.nextReg + 1 := h₃.2
            omega
          · have hstop : cg₁.Stops (cg.RejectsConst (.gep base (some off))) (1 + 1) _ _ := he.before hnext₂ False.elim (Nat.le_refl 2)
            exact hstop.before hnext₁ id (Nat.le_refl _)
        · exact he.before hnext₁ False.elim (by omega)
  | expr ty => exact Or.inl .expr
  | other ty => exact Or.inl .other

/-- `cg_reg_for` stops only for a value it rejects, or where no register is left. -/
theorem takes_cgRegFor (hpool : cg.freeList = []) (v : Val) : Takes (cgRegFor v) (cg.regsTaken v) (cg.Rejects v) cg := by
  cases v with
  | const c =>
    unfold cgRegFor
    refine Exec.wp_mono (fun _ _ h => h) (fun _ _ he => ?_) (takes_cgRegForConst hpool c)
    exact he.imp_left fun hrej => ⟨rfl, hrej⟩
  | block id => exact Or.inl ⟨rfl, rfl⟩
  | loc l =>
    unfold Takes cgRegFor Cg.regsTaken
    rw [Exec.wp_bind, Exec.wp_get]
    cases hhome : cg.lookup (.loc l) with
    | none => exact Or.inl ⟨hhome, rfl⟩
    | some home =>
      dsimp only
      cases hslot : home.valSlot with
      | none => exact ⟨hpool, Nat.le_add_right _ _⟩
      | some slot =>
        dsimp only
        rw [cgReloadSpilled, Exec.wp_bind]
        refine Exec.wp_mono (fun r cg' h => ?_) (fun _ _ he => he.imp_left False.elim) (takes_cgAllocReg hpool)
        simp only [Exec.wp_bind, Exec.wp_get, wp_cgLdwSpOff, Exec.wp_pure]
        exact h

end rejected

end CronoVM
