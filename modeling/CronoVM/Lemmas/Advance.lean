import CronoVM.Lemmas.Linking
import CronoVM.Lemmas.Operands
import CronoVM.Translator.Switch

/-!
# Emission step by step

A piece of the code generator that only adds code and takes scratch registers brings `cg` to `cg.adv ws k`; the rules here run such a piece.
`Later` says the same of a whole function: what is there stays, and fixups are queued for what is new.
-/

namespace CronoVM

open Checked Ir

/-! ## Words and registers -/

/-- `cg` with `ws` behind its code and `k` more registers in use. -/
def Cg.adv (cg : Cg) (ws : List Word) (k : Nat) : Cg := { cg with code := cg.code ++ ws, nextReg := cg.nextReg + k }

/-- No words and no registers change nothing. -/
theorem Cg.adv_zero (cg : Cg) : cg.adv [] 0 = cg := by
  simp only [Cg.adv, List.append_nil, Nat.add_zero]

section adv

variable {Q : Unit → Cg → Prop} {R : Byte → Cg → Prop} {E : CgError → Cg → Prop} {cg : Cg} {ws us : List Word} {k : Nat}

/-- The words go to the end of the code. -/
@[simp] theorem Cg.adv_code : (cg.adv ws k).code = cg.code ++ ws := rfl

/-- The register of zero stays. -/
@[simp] theorem Cg.adv_zeroReg : (cg.adv ws k).zeroReg = cg.zeroReg := rfl

/-- Two advances are one. -/
@[simp] theorem Cg.adv_adv {j : Nat} : (cg.adv ws k).adv us j = cg.adv (ws ++ us) (k + j) := by
  simp only [Cg.adv, List.append_assoc, Nat.add_assoc]

/-- Words after an advance. -/
@[simp] theorem Cg.emit_adv : (cg.adv ws k).emit us = cg.adv (ws ++ us) k := by
  simp only [Cg.adv, Cg.emit, List.append_assoc]

/-- After an advance the next register is taken, while one is left. -/
theorem wp_cgAllocReg_adv (hpool : cg.freeList = []) : Exec.wp cgAllocReg R E (cg.adv ws k) ↔
    (cg.nextReg + k > cgMaxEmitReg → E .scratchExhausted (cg.adv ws k)) ∧
      (¬cg.nextReg + k > cgMaxEmitReg → R (BitVec.ofNat 8 (cg.nextReg + k)) (cg.adv ws (k + 1))) :=
  wp_cgAllocReg (show (cg.adv ws k).freeList = [] from hpool)

/-- After an advance a constant goes to the next register, while one is left. -/
theorem wp_cgConstReg_adv (hpool : cg.freeList = []) {imm : Word} : Exec.wp (cgConstReg imm) R E (cg.adv ws k) ↔
    (cg.nextReg + k > cgMaxEmitReg → E .scratchExhausted (cg.adv ws k)) ∧
      (¬cg.nextReg + k > cgMaxEmitReg → R (BitVec.ofNat 8 (cg.nextReg + k))
        (cg.adv (ws ++ loadConst32Words (BitVec.ofNat 8 (cg.nextReg + k)) imm) (k + 1))) := by
  simp only [cgConstReg, Exec.wp_bind, wp_cgAllocReg_adv hpool, wp_cgEmitLoadConst32, Exec.wp_pure, Cg.emit_adv]

/-- Only code is added and registers are taken. -/
def Cg.Grown (cg cg' : Cg) : Prop := ∃ ws k, cg' = cg.adv ws k

/-- Nothing has grown. -/
theorem Cg.Grown.refl (cg : Cg) : cg.Grown cg := ⟨[], 0, cg.adv_zero.symm⟩

/-- Growth goes on. -/
theorem Cg.Grown.trans {cg cg' cg'' : Cg} (h : cg.Grown cg') (h' : cg'.Grown cg'') : cg.Grown cg'' := by
  obtain ⟨ws, k, rfl⟩ := h
  obtain ⟨us, j, rfl⟩ := h'
  exact ⟨ws ++ us, k + j, Cg.adv_adv⟩

/-- An empty pool stays empty. -/
theorem Cg.Grown.pool {cg cg' : Cg} (h : cg.Grown cg') (hpool : cg.freeList = []) : cg'.freeList = [] := by
  obtain ⟨ws, k, rfl⟩ := h
  exact hpool

/-- A constant's register. -/
theorem grown_cgConstReg (hpool : cg.freeList = []) (imm : Word) :
    Exec.wp (cgConstReg imm) (fun _ cg' => cg.Grown cg') (fun _ _ => True) cg := by
  simp only [cgConstReg, Exec.wp_bind, wp_cgAllocReg hpool, wp_cgEmitLoadConst32, Exec.wp_pure]
  exact ⟨fun _ => trivial, fun _ => ⟨_, 1, rfl⟩⟩

/-- A register that is allocated. -/
theorem grown_cgAllocReg (hpool : cg.freeList = []) : Exec.wp cgAllocReg (fun _ cg' => cg.Grown cg') (fun _ _ => True) cg := by
  refine (wp_cgAllocReg hpool).mpr ⟨fun _ => trivial, fun _ => ⟨[], 1, ?_⟩⟩
  simp only [Cg.adv, List.append_nil]

/-- Words that are emitted. -/
theorem grown_emit (us : List Word) : cg.Grown (cg.emit us) := ⟨us, 0, rfl⟩

/-- A constant operand's register. -/
theorem grown_cgRegForConst (hpool : cg.freeList = []) (c : Const) :
    Exec.wp (cgRegForConst c) (fun _ cg' => cg.Grown cg') (fun _ _ => True) cg := by
  induction c with
  | aliasOf aliasee ih => exact ih
  | cast c ty ih => exact ih
  | int width bits =>
    simp only [cgRegForConst, Exec.wp_bind, Exec.wp_stopIf]
    exact ⟨fun _ => trivial, fun _ => grown_cgConstReg hpool _⟩
  | null =>
    simp only [cgRegForConst, Exec.wp_bind]
    refine Exec.wp_mono ?_ (fun _ _ h => h) (grown_cgAllocReg hpool)
    intro r cg₁ hcg₁
    simp only [wp_cgEmit, Exec.wp_pure]
    exact hcg₁.trans (grown_emit _)
  | float bits => exact grown_cgConstReg hpool _
  | undef ty => exact .refl cg
  | global id =>
    simp only [cgRegForConst, Exec.wp_bind, Exec.wp_get]
    cases cg.globals.find? fun e => decide (e.1 = id) with
    | none => exact trivial
    | some e => exact grown_cgConstReg hpool _
  | func id =>
    simp only [cgRegForConst, Exec.wp_bind, Exec.wp_get]
    cases cg.funcs.idxOf? id with
    | none => exact trivial
    | some fidx => exact grown_cgConstReg hpool _
  | gep base off ih =>
    cases off with
    | none => exact trivial
    | some off =>
      rw [cgRegForConst, Exec.wp_bind]
      refine Exec.wp_mono ?_ (fun _ _ h => h) ih
      intro b cg₁ hcg₁
      by_cases hoff : off = 0
      · rw [if_pos hoff]
        exact hcg₁
      · rw [if_neg hoff, Exec.wp_bind, Exec.wp_stopIf]
        refine ⟨fun _ => trivial, fun _ => ?_⟩
        rw [Exec.wp_bind]
        refine Exec.wp_mono ?_ (fun _ _ h => h) (grown_cgConstReg (hcg₁.pool hpool) _)
        intro offR cg₂ hcg₂
        have hcg₂ := hcg₁.trans hcg₂
        rw [Exec.wp_bind]
        refine Exec.wp_mono ?_ (fun _ _ h => h) (grown_cgAllocReg (hcg₂.pool hpool))
        intro sumR cg₃ hcg₃
        simp only [Exec.wp_bind, wp_cgEmit, Exec.wp_pure]
        exact (hcg₂.trans hcg₃).trans (grown_emit _)
  | _ => exact trivial

/-- `cg_reg_for` adds code and takes registers. -/
theorem grown_cgRegFor (hpool : cg.freeList = []) (v : Val) :
    Exec.wp (cgRegFor v) (fun _ cg' => cg.Grown cg') (fun _ _ => True) cg := by
  unfold cgRegFor
  rw [Exec.wp_bind, Exec.wp_get]
  cases v with
  | block id => exact trivial
  | const c => exact grown_cgRegForConst hpool c
  | loc l =>
    simp only [Cg.lookup]
    cases cg.home? l with
    | none => exact trivial
    | some home =>
      dsimp only
      cases home.valSlot with
      | none => exact .refl cg
      | some slot =>
        simp only [cgReloadSpilled, Exec.wp_bind]
        refine Exec.wp_mono ?_ (fun _ _ h => h) (grown_cgAllocReg hpool)
        intro r cg₁ hcg₁
        simp only [Exec.wp_get, wp_cgLdwSpOff, Exec.wp_pure]
        exact hcg₁.trans (grown_emit _)

end adv

/-! ## The whole function -/

section lift

variable {α : Type} {m : Emit α} {Q : α → CgFn → Prop} {E : CgError → CgFn → Prop} {cg : CgFn}

/-- An emission in the state of a whole function. -/
theorem wp_lift : Exec.wp m.lift Q E cg ↔ Exec.wp m (fun a c => Q a { cg with toCg := c }) (fun e c => E e { cg with toCg := c }) cg.toCg := by
  unfold Exec.wp Emit.lift
  cases m cg.toCg <;> rfl

/-- A lifted piece that returned has left blocks, fixups and data as they were. -/
theorem of_lift {a : α} {cg' : CgFn} (hrun : m.lift cg = .val a cg') : ∃ c, m cg.toCg = .val a c ∧ cg' = { cg with toCg := c } := by
  unfold Emit.lift at hrun
  cases hm : m cg.toCg with
  | val b c =>
    rw [hm] at hrun
    obtain ⟨rfl, rfl⟩ := Outcome.val.inj hrun
    exact ⟨c, rfl, rfl⟩
  | stop e c =>
    rw [hm] at hrun
    nomatch hrun
  | oob =>
    rw [hm] at hrun
    nomatch hrun

end lift

/-- The rest of the emission only adds: code, fixups for it, data, and table entries in it. -/
structure Later (cg cg' : CgFn) : Prop where
  code : cg.code <+: cg'.code
  fixups : ∃ fs, cg'.fixups = cg.fixups ++ fs ∧ ∀ fx ∈ fs, cg.code.length ≤ fx.instIndex ∧ fx.instIndex < cg'.code.length
  data : cg.dataBytes <+: cg'.dataBytes
  tables : ∃ ts, cg'.tableFixups = cg.tableFixups ++ ts ∧
    ∀ fx ∈ ts, cg.dataBytes.length ≤ fx.dataOff ∧ fx.dataOff + 4 ≤ cg'.dataBytes.length

/-- The fixups of a function under way are for code and data that is there. -/
structure CgFn.UnderWay (cg : CgFn) : Prop where
  fixups : ∀ fx ∈ cg.fixups, fx.instIndex < cg.code.length
  tables : ∀ fx ∈ cg.tableFixups, fx.dataOff + 4 ≤ cg.dataBytes.length

namespace Later

variable {cg cg' cg'' : CgFn}

/-- Nothing has happened. -/
theorem refl (cg : CgFn) : Later cg cg :=
  ⟨List.prefix_refl _, ⟨[], by rw [List.append_nil], fun _ h => absurd h List.not_mem_nil⟩, List.prefix_refl _,
    ⟨[], by rw [List.append_nil], fun _ h => absurd h List.not_mem_nil⟩⟩

/-- What has happened since. -/
theorem trans (h : Later cg cg') (h' : Later cg' cg'') : Later cg cg'' := by
  obtain ⟨fs, hfs, hpos⟩ := h.fixups
  obtain ⟨fs', hfs', hpos'⟩ := h'.fixups
  obtain ⟨ts, hts, hoff⟩ := h.tables
  obtain ⟨ts', hts', hoff'⟩ := h'.tables
  have hcode := h.code.length_le
  have hcode' := h'.code.length_le
  have hdata := h.data.length_le
  have hdata' := h'.data.length_le
  refine ⟨h.code.trans h'.code, ⟨fs ++ fs', by rw [hfs', hfs, List.append_assoc], fun fx hfx => ?_⟩, h.data.trans h'.data,
    ⟨ts ++ ts', by rw [hts', hts, List.append_assoc], fun fx hfx => ?_⟩⟩
  · rcases List.mem_append.mp hfx with hfx | hfx
    · have := hpos fx hfx
      omega
    · have := hpos' fx hfx
      omega
  · rcases List.mem_append.mp hfx with hfx | hfx
    · have := hoff fx hfx
      omega
    · have := hoff' fx hfx
      omega

/-- The translation stays under way. -/
theorem underWay (h : Later cg cg') (hcg : cg.UnderWay) : cg'.UnderWay := by
  obtain ⟨fs, hfs, hpos⟩ := h.fixups
  obtain ⟨ts, hts, hoff⟩ := h.tables
  constructor
  · intro fx hfx
    rw [hfs] at hfx
    rcases List.mem_append.mp hfx with hfx | hfx
    · exact Nat.lt_of_lt_of_le (hcg.fixups fx hfx) h.code.length_le
    · exact (hpos fx hfx).2
  · intro fx hfx
    rw [hts] at hfx
    rcases List.mem_append.mp hfx with hfx | hfx
    · exact Nat.le_trans (hcg.tables fx hfx) h.data.length_le
    · exact (hoff fx hfx).2

/-- Only code. -/
theorem adv (cg : CgFn) (ws : List Word) (k : Nat) : Later cg { cg with toCg := cg.toCg.adv ws k } :=
  ⟨List.prefix_append _ _, ⟨[], by rw [List.append_nil], fun _ h => absurd h List.not_mem_nil⟩, List.prefix_refl _,
    ⟨[], by rw [List.append_nil], fun _ h => absurd h List.not_mem_nil⟩⟩

/-- The words emitted in between stand in the final code. -/
theorem hasAt (h : Later cg' cg'') {ws : List Word} (hws : cg'.code = cg.code ++ ws) : HasAt cg''.code cg.code.length ws := by
  obtain ⟨rest, hrest⟩ := h.code
  exact ⟨cg.code, rest, by rw [← hrest, hws, List.append_assoc], rfl⟩

/-- A fixup for the code in between is one of those queued in between. -/
theorem fixup_between (h : Later cg' cg'') (hcg : cg.UnderWay) {fs : List Fixup} (hfs : cg'.fixups = cg.fixups ++ fs) {fx : Fixup}
    (hfx : fx ∈ cg''.fixups) (hlo : cg.code.length ≤ fx.instIndex) (hhi : fx.instIndex < cg'.code.length) : fx ∈ fs := by
  obtain ⟨rest, hrest, hpos⟩ := h.fixups
  rw [hrest, hfs] at hfx
  rcases List.mem_append.mp hfx with hfx | hfx
  · rcases List.mem_append.mp hfx with hfx | hfx
    · have := hcg.fixups fx hfx
      omega
    · exact hfx
  · have := hpos fx hfx
    omega

end Later

end CronoVM
