import CronoVM.Lemmas.Wide64
import CronoVM.Lib.IntWords
import CronoVM.Translator.Overflow

/-!
# Runs of arithmetic with an overflow flag

Each sequence is a block that leaves the words of the result and the flag in registers. The words are those of a wrapped integer, and the flag
tells whether the integer had to be wrapped.
-/

namespace CronoVM

open Checked Ir NarrowInt TwoWord IntWords

variable {κ W : Type}

/-! ## Registers and slots -/

/-- The frame with words from an address on. -/
def Frame.setWords (f : Frame κ W) (p : Nat) : List Word → Frame κ W
  | [] => f
  | v :: vs => (f.setWord p v).setWords (p + 4) vs

/-- Code that leaves words in registers; scratch registers change. -/
def GivesRegs (img : Image κ) (host : Host κ W) (cg : Cg) (f : Frame κ W) (vs : List Word) (rs : List Byte) (cg' : Cg) : Prop :=
  ∃ f', Prepares img host cg f cg' f' ∧ rs.map f'.regs = vs ∧ ∀ r ∈ rs, Held r cg'.nextReg

/-- The three words of an operand of 65 bits. -/
def wide3Words (cg : Cg) (f : Frame κ W) (v : Val) : List Word :=
  match (cg.lookup v).bind Home.i64Slot with
  | some s => [f.heap.word (slotAddr cg f s), f.heap.word (slotAddr cg f (s + 1)), f.heap.word (slotAddr cg f (s + 2))]
  | none => []

/-- The words of an operand of `bits` bits, the lowest first. -/
def operandWords (cg : Cg) (f : Frame κ W) (bits : Nat) (v : Val) : List Word :=
  if bits ≤ 32 then [operandWord cg f v]
  else if bits ≤ 64 then [(wideWords cg f v).1, (wideWords cg f v).2]
  else wide3Words cg f v

section slots

variable {img : Image κ} {host : Host κ W} {cg cg₁ cg' : Cg} {f f₁ g g₁ : Frame κ W} {vs : List Word} {rs : List Byte}

theorem Frame.AgreesOff.setWords {S : Byte → Prop} (h : f.AgreesOff S g) (p : Nat) (vs : List Word) :
    (f.setWords p vs).AgreesOff S (g.setWords p vs) := by
  induction vs generalizing f g p with
  | nil => exact h
  | cons v vs ih => exact ih (h.setWord p v) (p + 4)

theorem GivesRegs.after (hcode : img.code.length = img.codeCount.toNat) (hprep : Prepares img host cg f cg₁ f₁)
    (h : GivesRegs img host cg₁ f₁ vs rs cg') : GivesRegs img host cg f vs rs cg' := by
  obtain ⟨f', hprep', hval, hheld⟩ := h
  exact ⟨f', hprep.trans hcode hprep', hval, hheld⟩

variable (host) (hcode : img.code.length = img.codeCount.toNat)
include hcode

/-- A block that computes words. -/
theorem GivesRegs.of_block (srcs : List Byte) (hsrcs : ∀ r ∈ srcs, Held r cg.nextReg) (k : Nat) (hnext : cg.nextReg + k ≤ cgMaxEmitReg + 1)
    (block : List BlockInst) (hblock : block.all (BlockInst.ok srcs.length k) = true) (xs : List RegName)
    (hxs : xs.all (fun x => x != .scratch && x.ok srcs.length k) = true)
    (hvs : xs.map (evalBlock block fun x => f.regs (x.reg srcs cg.nextReg)) = vs) :
    GivesRegs img host cg f vs (xs.map (RegName.reg srcs cg.nextReg))
      { cg.emit (block.map (BlockInst.word (RegName.reg srcs cg.nextReg))) with nextReg := cg.nextReg + k } := by
  obtain ⟨f', hprep, hreads⟩ := prepares_block (f := f) host hcode hsrcs hnext block hblock
  simp only [List.all_eq_true, Bool.and_eq_true, bne_iff_ne] at hxs
  refine ⟨f', hprep, ?_, ?_⟩
  · rw [List.map_map, ← hvs]
    exact List.map_congr_left fun x hx => hreads x (hxs x hx).2
  · intro r hr
    obtain ⟨x, hx, rfl⟩ := List.mem_map.mp hr
    exact RegName.held_reg hsrcs hnext (hxs x hx).2 (hxs x hx).1

/-- Registers are stored in consecutive slots as long as the slot numbers do not wrap around. -/
theorem wp_cgStoreSlots (hok : cg.Ok) (hin : InFrame cg img f) (h : StoresIn img host cg f cg₁ g) {base k : Nat}
    (hroom : base + k + rs.length ≤ cg.valSpillCount) (hwrap : base + k + rs.length ≤ 2 ^ 16) (hrs : ∀ r ∈ rs, r ≠ cgRegScratch) :
    Exec.wp (cgStoreSlots base k rs)
      (fun _ cg₂ => StoresIn img host cg f cg₂ (g.setWords (slotAddr cg f (base + k)) (rs.map f.regs))) (fun e _ => e.OfOperand) cg₁ := by
  induction rs generalizing k cg₁ g with
  | nil => exact h
  | cons r rs ih =>
    rw [List.length_cons] at hroom hwrap
    have hoff : cg₁.valSlotOff (base + k) = cg.valSlotOff (base + k) := by
      obtain ⟨_, ⟨ws, n, rfl, _⟩, _⟩ := h.run
      rfl
    rw [cgStoreSlots, Exec.wp_bind, Exec.wp_get, Exec.wp_bind, aggWordSlot_of_lt (by omega), hoff]
    refine Exec.wp_mono ?_ (fun _ _ he => he) (wp_storeSlot host hcode hok hin h (by omega) (hrs r List.mem_cons_self))
    intro _ cg₂ h₂
    have hroom' : base + (k + 1) + rs.length ≤ cg.valSpillCount := by omega
    have hwrap' : base + (k + 1) + rs.length ≤ 2 ^ 16 := by omega
    have hrest := ih h₂ hroom' hwrap' fun s hs => hrs s (List.mem_cons_of_mem _ hs)
    rw [← Nat.add_assoc, ← slotAddr_add_four] at hrest
    exact hrest

/-- Words that are in registers are stored in slots. -/
theorem wp_storeRegs (hok : cg.Ok) (hin : InFrame cg img f) {base : Nat} (hroom : base + vs.length ≤ cg.valSpillCount)
    (hwrap : base + vs.length ≤ 2 ^ 16) (h : GivesRegs img host cg f vs rs cg₁) :
    Exec.wp (cgStoreSlots base 0 rs) (fun _ => Leaves img host cg f (f.setWords (slotAddr cg f base) vs)) (fun e _ => e.OfOperand) cg₁ := by
  obtain ⟨f₁, hprep, rfl, hheld⟩ := h
  rw [List.length_map] at hroom hwrap
  have hroom₁ : base + 0 + rs.length ≤ cg₁.valSpillCount := by rwa [hprep.valSpillCount_eq]
  have hrs : ∀ r ∈ rs, r ≠ cgRegScratch := fun r hr => (hheld r hr).ne_r254 hprep.next_le
  refine Exec.wp_mono ?_ (fun _ _ he => he) (wp_cgStoreSlots host hcode (hprep.ok hok) (hprep.inFrame hin) .refl hroom₁ hwrap hrs)
  intro _ cg₂ h₂
  rw [Nat.add_zero, hprep.slotAddr_eq] at h₂
  exact .of_stores hcode hok hprep h₂ (hprep.agrees.setWords _ _)

/-- `cg_i65_read` puts the words of a value into registers. -/
theorem wp_cgI65Read (hok : cg.Ok) (hin : InFrame cg img f) (v : Val)
    (hslots : ∀ l home slot, v = .loc l → cg.home? l = some home → home.i64Slot = some slot → slot + 2 < cg.valSpillCount) :
    Exec.wp (cgI65Read v) (fun r => GivesRegs img host cg f (wide3Words cg f v) [r.1, r.2.1, r.2.2]) (fun e _ => e.OfOperand) cg := by
  unfold cgI65Read
  rw [Exec.wp_bind, Exec.wp_get]
  cases hslot : (cg.lookup v).bind Home.i64Slot with
  | none => exact trivial
  | some slot =>
    obtain ⟨home, hhome, hi64⟩ := Option.bind_eq_some_iff.mp hslot
    have hk : slot + 2 < cg.valSpillCount := by
      cases v with
      | loc l => exact hslots l home slot rfl hhome hi64
      | _ => nomatch hhome
    have hwords : wide3Words cg f v =
        [f.heap.word (slotAddr cg f slot), f.heap.word (slotAddr cg f (slot + 1)), f.heap.word (slotAddr cg f (slot + 2))] := by
      simp only [wide3Words, hslot]
    have height : cg.valSlotOff slot + 8 = cg.valSlotOff (slot + 2) := by
      rw [← valSlotOff_add_four (slot + 1), ← valSlotOff_add_four slot, BitVec.add_assoc]
      rfl
    rw [hwords]
    dsimp only
    rw [valSlotOff_add_four, height]
    refine wp_loadSlot host hcode hok hin (by omega) fun r₀ cg₁ f₁ hprep₁ hr₀ hheld₀ => ?_
    rw [← hprep₁.valSlotOff_eq, ← hprep₁.valSlotOff_eq]
    refine wp_loadSlot host hcode (hprep₁.ok hok) (hprep₁.inFrame hin) (by rw [hprep₁.valSpillCount_eq]; omega)
      fun r₁ cg₂ f₂ hprep₂ hr₁ hheld₁ => ?_
    have hprep := hprep₁.trans hcode hprep₂
    rw [hprep₁.slotAddr_eq, hprep₁.agrees.heap] at hr₁
    rw [hprep₁.valSlotOff_eq, ← hprep.valSlotOff_eq]
    refine wp_loadSlot host hcode (hprep.ok hok) (hprep.inFrame hin) (by rwa [hprep.valSpillCount_eq])
      fun r₂ cg₃ f₃ hprep₃ hr₂ hheld₂ => ?_
    rw [hprep.slotAddr_eq, hprep.agrees.heap] at hr₂
    have hold₀ : f₃.regs r₀ = f.heap.word (slotAddr cg f slot) := by rw [hprep₃.regs (hprep₂.held hheld₀), hprep₂.regs hheld₀, hr₀]
    have hold₁ : f₃.regs r₁ = f.heap.word (slotAddr cg f (slot + 1)) := by rw [hprep₃.regs hheld₁, hr₁]
    rw [Exec.wp_pure]
    refine ⟨f₃, hprep.trans hcode hprep₃, ?_, ?_⟩
    · simp only [List.map_cons, List.map_nil, hold₀, hold₁, hr₂]
    · intro r hr
      simp only [List.mem_cons, List.not_mem_nil, or_false] at hr
      rcases hr with rfl | rfl | rfl
      · exact hprep₃.held (hprep₂.held hheld₀)
      · exact hprep₃.held hheld₁
      · exact hheld₂

end slots

/-! ## Sequences -/

/-- The sign of the low bits, extended by the two shifts of the code. -/
theorem extendLow_shifts {n : Nat} (hpos : 0 < n) (hn : n < 32) (x : Word) : extendLow true n x =
    (x <<< ((BitVec.ofNat 16 (32 - n)).signExtend 32 &&& 31 : Word)).sshiftRight' ((BitVec.ofNat 16 (32 - n)).signExtend 32 &&& 31 : Word) := by
  rw [sar_amount _ (by omega), shl_amount _ (by omega), sshiftRight_shiftLeft hpos (by omega)]
  rfl

section blocks

variable {img : Image κ} (host : Host κ W) {cg : Cg} {f : Frame κ W}
variable (hcode : img.code.length = img.codeCount.toNat)
include hcode

theorem wp_cgUaddOverflow32 (hok : cg.Ok) {a b : Byte} (hsrcs : ∀ r ∈ [a, b], Held r cg.nextReg) : Exec.wp (cgUaddOverflow32 a b)
    (GivesRegs img host cg f [f.regs a + f.regs b, carry (f.regs a) (f.regs b)]) (fun e _ => e.OfOperand) cg := by
  have hpool := hok.pool
  unfold cgUaddOverflow32
  refine wp_alloc hpool fun _ => wp_alloc hpool fun (hroom : ¬cg.nextReg + 1 > cgMaxEmitReg) => ?_
  simp only [Exec.wp_bind, wp_cgEmit, Cg.emit_emit, Exec.wp_pure]
  exact .of_block host hcode _ hsrcs 2 (by omega) [.alu .add (.tmp 0) (.src 0) (.src 1), .alu .cmpLtu (.tmp 1) (.tmp 0) (.src 0)] rfl
    [.tmp 0, .tmp 1] rfl rfl

/-- The word of an unsigned comparison. -/
def ltWord (x y : Word) : Word := if x < y then 1 else 0

theorem wp_cgUmulOverflow32 (hok : cg.Ok) (hzero : f.regs cgRegZero = 0) {a b : Byte} (hsrcs : ∀ r ∈ [a, b, cg.zeroReg], Held r cg.nextReg) :
    Exec.wp (cgUmulOverflow32 a b)
      (GivesRegs img host cg f [f.regs a * f.regs b, ltWord 0 (mulHigh (f.regs a) (f.regs b))]) (fun e _ => e.OfOperand) cg := by
  have hpool := hok.pool
  have hzreg : f.regs cg.zeroReg = 0 := by rw [hok.zero]; exact hzero
  unfold cgUmulOverflow32
  refine wp_alloc hpool fun _ => wp_alloc hpool fun _ => wp_alloc hpool fun (hroom : ¬cg.nextReg + 1 + 1 > cgMaxEmitReg) => ?_
  simp only [Exec.wp_bind, wp_cgEmit, Cg.emit_emit, Exec.wp_get, Exec.wp_pure]
  rw [← hzreg]
  exact .of_block host hcode _ hsrcs 3 (by omega) [.alu .mul (.tmp 0) (.src 0) (.src 1), .alu .mulhu (.tmp 2) (.src 0) (.src 1),
    .alu .cmpLtu (.tmp 1) (.src 2) (.tmp 2)] rfl [.tmp 0, .tmp 1] rfl rfl

theorem wp_cgUaddOverflow64 (hok : cg.Ok) {al ah bl bh : Byte} (hsrcs : ∀ r ∈ [al, ah, bl, bh], Held r cg.nextReg) :
    Exec.wp (cgUaddOverflow64 al ah bl bh) (GivesRegs img host cg f [f.regs al + f.regs bl,
      f.regs ah + f.regs bh + carry (f.regs al) (f.regs bl), carry (f.regs ah) (f.regs bh) |||
        carry (f.regs ah + f.regs bh) (carry (f.regs al) (f.regs bl))]) (fun e _ => e.OfOperand) cg := by
  have hpool := hok.pool
  unfold cgUaddOverflow64
  refine wp_alloc hpool fun _ => wp_alloc hpool fun _ => wp_alloc hpool fun _ => wp_alloc hpool fun _ => wp_alloc hpool fun _ =>
    wp_alloc hpool fun _ => wp_alloc hpool fun (hroom : ¬cg.nextReg + 1 + 1 + 1 + 1 + 1 + 1 > cgMaxEmitReg) => ?_
  simp only [Exec.wp_bind, wp_cgEmit, Cg.emit_emit, Exec.wp_pure]
  exact .of_block host hcode _ hsrcs 7 (by omega) [.alu .add (.tmp 0) (.src 0) (.src 2), .alu .cmpLtu (.tmp 3) (.tmp 0) (.src 0),
    .alu .add (.tmp 6) (.src 1) (.src 3), .alu .cmpLtu (.tmp 4) (.tmp 6) (.src 1), .alu .add (.tmp 1) (.tmp 6) (.tmp 3),
    .alu .cmpLtu (.tmp 5) (.tmp 1) (.tmp 6), .alu .or (.tmp 2) (.tmp 4) (.tmp 5)] rfl [.tmp 0, .tmp 1, .tmp 2] rfl rfl

/-- The flag of a product of two words: a partial product or a carry above bit 63. -/
def umulFlag64 (al ah bl bh : Word) : Word :=
  (ltWord 0 (mulHigh al bh) ||| ltWord 0 (mulHigh ah bl) |||
    (carry (mulHigh al bl) (al * bh) ||| carry (mulHigh al bl + al * bh) (ah * bl))) ||| (ltWord 0 ah &&& ltWord 0 bh)

/-- The code of a product of two words, with the operands and the zero register. -/
def umulBlock64 : List BlockInst :=
  [.alu .mul (.tmp 0) (.src 0) (.src 2), .alu .mulhu (.tmp 3) (.src 0) (.src 2), .alu .mul (.tmp 4) (.src 0) (.src 3),
    .alu .mulhu (.tmp 5) (.src 0) (.src 3), .alu .mul (.tmp 6) (.src 1) (.src 2), .alu .mulhu (.tmp 7) (.src 1) (.src 2)] ++
  [.alu .add (.tmp 8) (.tmp 3) (.tmp 4), .alu .cmpLtu (.tmp 9) (.tmp 8) (.tmp 3), .alu .add (.tmp 1) (.tmp 8) (.tmp 6),
    .alu .cmpLtu (.tmp 10) (.tmp 1) (.tmp 8), .alu .cmpLtu (.tmp 11) (.src 4) (.tmp 5), .alu .cmpLtu (.tmp 12) (.src 4) (.tmp 7)] ++
  [.alu .or (.tmp 11) (.tmp 11) (.tmp 12), .alu .or (.tmp 12) (.tmp 9) (.tmp 10), .alu .or (.tmp 11) (.tmp 11) (.tmp 12),
    .alu .cmpLtu (.tmp 13) (.src 4) (.src 1), .alu .cmpLtu (.tmp 14) (.src 4) (.src 3), .alu .and (.tmp 12) (.tmp 13) (.tmp 14),
    .alu .or (.tmp 2) (.tmp 11) (.tmp 12)]

omit hcode in
/-- What the code computes, in three steps: the partial products, the column of bits 32 to 63, the flag. -/
theorem evalBlock_umulBlock64 {e : RegName → Word} {al ah bl bh : Word} (hal : e (.src 0) = al) (hah : e (.src 1) = ah)
    (hbl : e (.src 2) = bl) (hbh : e (.src 3) = bh) (hz : e (.src 4) = 0) : [RegName.tmp 0, .tmp 1, .tmp 2].map (evalBlock umulBlock64 e) =
      [al * bl, mulHigh al bl + al * bh + ah * bl, umulFlag64 al ah bl bh] := by
  rw [umulBlock64, evalBlock_append, evalBlock_append]
  obtain ⟨e₁, he₁⟩ : ∃ e₁, evalBlock [.alu .mul (.tmp 0) (.src 0) (.src 2), .alu .mulhu (.tmp 3) (.src 0) (.src 2),
    .alu .mul (.tmp 4) (.src 0) (.src 3), .alu .mulhu (.tmp 5) (.src 0) (.src 3), .alu .mul (.tmp 6) (.src 1) (.src 2),
    .alu .mulhu (.tmp 7) (.src 1) (.src 2)] e = e₁ := ⟨_, rfl⟩
  have h₀ : e₁ (.tmp 0) = al * bl := by rw [← he₁, ← hal, ← hbl]; rfl
  have h₃ : e₁ (.tmp 3) = mulHigh al bl := by rw [← he₁, ← hal, ← hbl]; rfl
  have h₄ : e₁ (.tmp 4) = al * bh := by rw [← he₁, ← hal, ← hbh]; rfl
  have h₅ : e₁ (.tmp 5) = mulHigh al bh := by rw [← he₁, ← hal, ← hbh]; rfl
  have h₆ : e₁ (.tmp 6) = ah * bl := by rw [← he₁, ← hah, ← hbl]; rfl
  have h₇ : e₁ (.tmp 7) = mulHigh ah bl := by rw [← he₁, ← hah, ← hbl]; rfl
  have hsrc : ∀ k, e₁ (.src k) = e (.src k) := by intro k; rw [← he₁]; rfl
  rw [he₁]
  obtain ⟨e₂, he₂⟩ : ∃ e₂, evalBlock [.alu .add (.tmp 8) (.tmp 3) (.tmp 4), .alu .cmpLtu (.tmp 9) (.tmp 8) (.tmp 3),
    .alu .add (.tmp 1) (.tmp 8) (.tmp 6), .alu .cmpLtu (.tmp 10) (.tmp 1) (.tmp 8), .alu .cmpLtu (.tmp 11) (.src 4) (.tmp 5),
    .alu .cmpLtu (.tmp 12) (.src 4) (.tmp 7)] e₁ = e₂ := ⟨_, rfl⟩
  have g₀ : e₂ (.tmp 0) = al * bl := by rw [← he₂, ← h₀]; rfl
  have g₁ : e₂ (.tmp 1) = mulHigh al bl + al * bh + ah * bl := by rw [← he₂, ← h₃, ← h₄, ← h₆]; rfl
  have g₉ : e₂ (.tmp 9) = carry (mulHigh al bl) (al * bh) := by rw [← he₂, ← h₃, ← h₄]; rfl
  have g₁₀ : e₂ (.tmp 10) = carry (mulHigh al bl + al * bh) (ah * bl) := by rw [← he₂, ← h₃, ← h₄, ← h₆]; rfl
  have g₁₁ : e₂ (.tmp 11) = ltWord 0 (mulHigh al bh) := by rw [← he₂, ← hz, ← h₅, ← hsrc]; rfl
  have g₁₂ : e₂ (.tmp 12) = ltWord 0 (mulHigh ah bl) := by rw [← he₂, ← hz, ← h₇, ← hsrc]; rfl
  have gsrc : ∀ k, e₂ (.src k) = e (.src k) := by intro k; rw [← hsrc, ← he₂]; rfl
  rw [he₂, umulFlag64, ← g₀, ← g₁, ← g₉, ← g₁₀, ← g₁₁, ← g₁₂, ← hah, ← hbh, ← hz, ← gsrc, ← gsrc, ← gsrc]
  rfl

theorem wp_cgUmulOverflow64 (hok : cg.Ok) (hzero : f.regs cgRegZero = 0) {al ah bl bh : Byte}
    (hsrcs : ∀ r ∈ [al, ah, bl, bh, cg.zeroReg], Held r cg.nextReg) : Exec.wp (cgUmulOverflow64 al ah bl bh)
      (GivesRegs img host cg f [f.regs al * f.regs bl, mulHigh (f.regs al) (f.regs bl) + f.regs al * f.regs bh + f.regs ah * f.regs bl,
        umulFlag64 (f.regs al) (f.regs ah) (f.regs bl) (f.regs bh)]) (fun e _ => e.OfOperand) cg := by
  have hpool := hok.pool
  have hzreg : f.regs cg.zeroReg = 0 := by rw [hok.zero]; exact hzero
  unfold cgUmulOverflow64
  refine wp_extend <| wp_allocNext hpool fun _ => wp_allocNext hpool fun _ => wp_allocNext hpool fun _ => wp_allocNext hpool fun _ =>
    wp_allocNext hpool fun _ => wp_allocNext hpool fun _ => wp_allocNext hpool fun _ => wp_allocNext hpool fun _ => ?_
  refine wp_emitNext <| wp_emitNext <| wp_emitNext <| wp_emitNext <| wp_emitNext <| wp_emitNext ?_
  refine wp_allocNext hpool fun _ => wp_allocNext hpool fun _ => wp_allocNext hpool fun _ => ?_
  refine wp_emitNext <| wp_emitNext <| wp_emitNext <| wp_emitNext ?_
  refine wp_allocNext hpool fun _ => wp_allocNext hpool fun _ => ?_
  rw [Exec.wp_bind, Exec.wp_get]
  refine wp_emitNext <| wp_emitNext <| wp_emitNext <| wp_emitNext <| wp_emitNext ?_
  refine wp_allocNext hpool fun _ => wp_allocNext hpool fun (hroom : ¬cg.nextReg + 14 > cgMaxEmitReg) => ?_
  refine wp_emitNext <| wp_emitNext <| wp_emitNext <| wp_emitNext ?_
  simp only [Exec.wp_pure, List.nil_append, List.cons_append, Nat.reduceAdd, Nat.add_zero]
  have hval := evalBlock_umulBlock64 (e := fun x => f.regs (x.reg [al, ah, bl, bh, cg.zeroReg] cg.nextReg)) rfl rfl rfl rfl hzreg
  exact .of_block host hcode _ hsrcs 15 (by omega) umulBlock64 rfl [.tmp 0, .tmp 1, .tmp 2] rfl hval

/-- The words of a signed sum and its flag: the last word with the sign of its low `n` bits, and whether that changed it. -/
def saddWords (n : Nat) (lows : List Word) (hi : Word) : List Word :=
  lows ++ [extendLow true n hi, boolWord (decide (hi ≠ extendLow true n hi))]

theorem wp_cgSaddOverflowWide2 (hok : cg.Ok) {n : Nat} (hpos : 0 < n) (hn : n < 32) {al ah bl bh : Byte}
    (hsrcs : ∀ r ∈ [al, ah, bl, bh], Held r cg.nextReg) : Exec.wp (cgSaddOverflowWide2 (32 + n) al ah bl bh)
      (GivesRegs img host cg f (saddWords n [f.regs al + f.regs bl] (f.regs ah + f.regs bh + carry (f.regs al) (f.regs bl))))
      (fun e _ => e.OfOperand) cg := by
  have hpool := hok.pool
  have hamount : 64 - (32 + n) = 32 - n := by omega
  unfold cgSaddOverflowWide2
  rw [hamount]
  refine wp_alloc hpool fun _ => wp_alloc hpool fun _ => wp_alloc hpool fun _ => wp_alloc hpool fun _ => wp_alloc hpool
    fun (hroom : ¬cg.nextReg + 1 + 1 + 1 + 1 > cgMaxEmitReg) => ?_
  simp only [cgAddWords, cgShiftImm, Exec.wp_bind, wp_cgEmit, Cg.emit_emit, Exec.wp_pure]
  rw [saddWords, extendLow_shifts hpos hn]
  refine .of_block host hcode _ hsrcs 5 (by omega) [.alu .add (.tmp 0) (.src 0) (.src 2), .alu .cmpLtu (.tmp 2) (.tmp 0) (.src 0),
    .alu .add (.tmp 1) (.src 1) (.src 3), .alu .add (.tmp 1) (.tmp 1) (.tmp 2), .movi .scratch (BitVec.ofNat 16 (32 - n)),
    .alu .shl (.tmp 3) (.tmp 1) .scratch, .movi .scratch (BitVec.ofNat 16 (32 - n)), .alu .sar (.tmp 3) (.tmp 3) .scratch,
    .alu .cmpNe (.tmp 4) (.tmp 1) (.tmp 3)] rfl [.tmp 0, .tmp 3, .tmp 4] rfl ?_
  simp only [boolWord, decide_eq_true_eq]
  rfl

/-- The code of a sum of three words. -/
def saddBlock65 : List BlockInst :=
  [.alu .add (.tmp 0) (.src 0) (.src 3), .alu .cmpLtu (.tmp 3) (.tmp 0) (.src 0), .alu .add (.tmp 4) (.src 1) (.src 4),
    .alu .cmpLtu (.tmp 5) (.tmp 4) (.src 1), .alu .add (.tmp 1) (.tmp 4) (.tmp 3), .alu .cmpLtu (.tmp 6) (.tmp 1) (.tmp 4),
    .alu .or (.tmp 7) (.tmp 5) (.tmp 6), .alu .add (.tmp 2) (.src 2) (.src 5), .alu .add (.tmp 2) (.tmp 2) (.tmp 7)] ++
  [.movi .scratch (BitVec.ofNat 16 31), .alu .shl (.tmp 8) (.tmp 2) .scratch, .movi .scratch (BitVec.ofNat 16 31),
    .alu .sar (.tmp 8) (.tmp 8) .scratch, .alu .cmpNe (.tmp 9) (.tmp 2) (.tmp 8)]

omit hcode in
/-- What the code computes: the sum, then its sign and the flag. -/
theorem evalBlock_saddBlock65 {e : RegName → Word} {a₀ a₁ a₂ b₀ b₁ b₂ : Word} (ha₀ : e (.src 0) = a₀) (ha₁ : e (.src 1) = a₁)
    (ha₂ : e (.src 2) = a₂) (hb₀ : e (.src 3) = b₀) (hb₁ : e (.src 4) = b₁) (hb₂ : e (.src 5) = b₂) :
    [RegName.tmp 0, .tmp 1, .tmp 8, .tmp 9].map (evalBlock saddBlock65 e) = saddWords 1 [a₀ + b₀, a₁ + b₁ + carry a₀ b₀]
      (a₂ + b₂ + (carry a₁ b₁ ||| carry (a₁ + b₁) (carry a₀ b₀))) := by
  rw [saddBlock65, evalBlock_append]
  obtain ⟨e₁, he₁⟩ : ∃ e₁, evalBlock [.alu .add (.tmp 0) (.src 0) (.src 3), .alu .cmpLtu (.tmp 3) (.tmp 0) (.src 0),
    .alu .add (.tmp 4) (.src 1) (.src 4), .alu .cmpLtu (.tmp 5) (.tmp 4) (.src 1), .alu .add (.tmp 1) (.tmp 4) (.tmp 3),
    .alu .cmpLtu (.tmp 6) (.tmp 1) (.tmp 4), .alu .or (.tmp 7) (.tmp 5) (.tmp 6), .alu .add (.tmp 2) (.src 2) (.src 5),
    .alu .add (.tmp 2) (.tmp 2) (.tmp 7)] e = e₁ := ⟨_, rfl⟩
  have h₀ : e₁ (.tmp 0) = a₀ + b₀ := by rw [← he₁, ← ha₀, ← hb₀]; rfl
  have h₁ : e₁ (.tmp 1) = a₁ + b₁ + carry a₀ b₀ := by rw [← he₁, ← ha₀, ← hb₀, ← ha₁, ← hb₁]; rfl
  have h₂ : e₁ (.tmp 2) = a₂ + b₂ + (carry a₁ b₁ ||| carry (a₁ + b₁) (carry a₀ b₀)) := by
    rw [← he₁, ← ha₀, ← hb₀, ← ha₁, ← hb₁, ← ha₂, ← hb₂]
    rfl
  rw [he₁, ← h₀, ← h₁, ← h₂, saddWords, extendLow_shifts (by decide) (by decide)]
  simp only [boolWord, decide_eq_true_eq]
  rfl

theorem wp_cgSaddOverflowWide3 (hok : cg.Ok) {a b : Byte × Byte × Byte}
    (hsrcs : ∀ r ∈ [a.1, a.2.1, a.2.2, b.1, b.2.1, b.2.2], Held r cg.nextReg) : Exec.wp (cgSaddOverflowWide3 a b)
      (GivesRegs img host cg f (saddWords 1 [f.regs a.1 + f.regs b.1, f.regs a.2.1 + f.regs b.2.1 + carry (f.regs a.1) (f.regs b.1)]
        (f.regs a.2.2 + f.regs b.2.2 + (carry (f.regs a.2.1) (f.regs b.2.1) |||
          carry (f.regs a.2.1 + f.regs b.2.1) (carry (f.regs a.1) (f.regs b.1)))))) (fun e _ => e.OfOperand) cg := by
  have hpool := hok.pool
  unfold cgSaddOverflowWide3
  refine wp_extend <| wp_allocNext hpool fun _ => wp_allocNext hpool fun _ => wp_allocNext hpool fun _ => wp_allocNext hpool fun _ =>
    wp_allocNext hpool fun _ => wp_allocNext hpool fun _ => wp_allocNext hpool fun _ => wp_allocNext hpool fun _ =>
    wp_allocNext hpool fun _ => wp_allocNext hpool fun (hroom : ¬cg.nextReg + 9 > cgMaxEmitReg) => ?_
  refine wp_emitNext <| wp_emitNext <| wp_emitNext <| wp_emitNext <| wp_emitNext <| wp_emitNext <| wp_emitNext <| wp_emitNext <|
    wp_emitNext <| wp_shiftImmNext <| wp_shiftImmNext <| wp_emitNext ?_
  simp only [Exec.wp_pure, List.nil_append, List.cons_append, Nat.reduceAdd, Nat.add_zero]
  have hval := evalBlock_saddBlock65 (e := fun x => f.regs (x.reg [a.1, a.2.1, a.2.2, b.1, b.2.1, b.2.2] cg.nextReg)) rfl rfl rfl rfl rfl rfl
  exact .of_block host hcode _ hsrcs 10 (by omega) saddBlock65 rfl [.tmp 0, .tmp 1, .tmp 8, .tmp 9] rfl hval

end blocks

end CronoVM
