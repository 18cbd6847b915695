import CronoVM.Lemmas.SwitchSelect
import CronoVM.Theorems.Safety

/-!
# The two forms of a switch

The chain of compares and the jump table go to the same block: the one that is selected, if the register of the condition has its value
zero-extended. Of a value with bits above its width neither form finds the case.
-/

namespace CronoVM

open Checked Ir

/-! ## Zero-extended conditions -/

/-- Both forms go to the selected block for each value of the condition that is zero-extended in its register. The chain reads no memory,
the table form only its own entries. Both fail only if no register is left. -/
theorem switch_forms_agree (κ W : Type) {N : Nat} (hN : N ≤ 32) {cg : CgFn} {condReg : Byte} (hcg : cg.AtDispatch condReg)
    {cases : List (BitVec N × Nat)} (hdistinct : (cases.map Prod.fst).Nodup) (dflt : Nat) :
    Exec.wp (cgSwitchChain N condReg dflt (cases.map caseOperand)) (fun _ cg' => OnlyAdds cg cg' ∧
        ∀ v : BitVec N, DispatchesTo κ W cg cg' condReg (v.setWidth 32) 0 0 (select v dflt cases))
      (fun e _ => e = .scratchExhausted ∧ cg.nextReg + 1 > cgMaxEmitReg) cg ∧
    ∀ lo nRange, switchTable N ((cases.map caseOperand).map Prod.fst) = some (lo, nRange) →
      Exec.wp (cgSwitchTable N condReg dflt lo nRange (cases.map caseOperand)) (fun _ cg' => OnlyAdds cg cg' ∧
          ∀ v : BitVec N, DispatchesTo κ W cg cg' condReg (v.setWidth 32) cg.dataBytes.length (4 * nRange) (select v dflt cases))
        (fun e _ => e = .scratchExhausted ∧ cg.nextReg + 8 > cgMaxEmitReg) cg := by
  constructor
  · refine Exec.wp_mono ?_ (fun _ _ he => he) (wp_chain_dispatches κ W (by omega) hcg dflt)
    intro _ cg' ⟨hadds, hgo⟩
    refine ⟨hadds, fun v => ?_⟩
    rw [← dispatchTarget_zext hN v]
    exact hgo _ _ _
  · intro lo nRange htable
    refine Exec.wp_mono ?_ (fun _ _ he => he) (wp_table_dispatches κ W (by omega) hcg dflt hdistinct htable)
    intro _ cg' ⟨hadds, _, hgo⟩
    refine ⟨hadds, fun v => ?_⟩
    rw [← dispatchTarget_zext hN v]
    exact hgo _

/-- A function that begins with a switch over R5. -/
def sampleSwitchCg : CgFn where
  code := []
  map := []
  nextReg := 6
  freeList := []
  zeroReg := cgRegZero
  allocaBytes := 0
  spillBytes := 0
  valSpillCount := 0
  frameBytes := 0
  ssaRegHigh := 6
  globals := []
  funcs := []
  curBlock := 0
  blocks := [0, 1, 2]
  blockOffsets := [0, 0, 0]
  fixups := []
  tableFixups := []
  dataBytes := []

/-- Block 1 for the value 0, and block 2 for the others. -/
def sampleCases : List (BitVec 8 × Nat) := [(0, 1)]

/-- The function with the chain and two blocks. -/
def sampleSwitch : CgFn :=
  { sampleSwitchCg with
    code := [encI16 .movi 6 0, encR .cmpEq 7 5 6, encBr .bne 7 cgRegZero 0, encI24 .jmp 0, encI24 .halt 0, encI24 .halt 0],
    blockOffsets := [0, 4, 5],
    fixups := [{ instIndex := 2, target := 1, shift := 24, bits := 8 }, { instIndex := 3, target := 2, shift := 8, bits := 24 }] }

/-- Its code with the displacements. -/
def sampleSwitchCode : List Word :=
  [encI16 .movi 6 0, encR .cmpEq 7 5 6, encBr .bne 7 cgRegZero 1, encI24 .jmp 1, encI24 .halt 0, encI24 .halt 0]

def sampleSwitchImage : Image Unit := codeImage sampleSwitchCode

/-- The machine before the switch, with `x` in R5. -/
def sampleSwitchFrame (x : Word) : Frame Unit Unit where
  regs r := if r = 5 then x else 0
  heap := sampleSwitchImage.heap
  importFns := []
  world := ()
  pc := 0

/-- The condition is in a register, and scratch registers are left. -/
theorem sampleSwitchCg_atDispatch : sampleSwitchCg.AtDispatch 5 where
  held := Or.inl (by decide)
  next := by decide
  pool := rfl
  zero := rfl
  underWay := ⟨by decide, by decide⟩

/-- The image holds the finished code. -/
theorem sampleSwitch_inImage : InImage sampleSwitch { sampleSwitch with code := sampleSwitchCode } sampleSwitchImage where
  wf := {
    code_lt := by decide
    distinct := by decide
    pos_lt := by decide
    target_mem := by decide
    offsets_length := rfl
    offsets_le := by decide
    word fx hfx := by
      simp only [sampleSwitch, List.mem_cons, List.not_mem_nil, or_false] at hfx
      rcases hfx with rfl | rfl
      · exact ⟨_, rfl, .cond .bne 7 cgRegZero (Or.inl rfl) rfl rfl⟩
      · exact ⟨_, rfl, .jump rfl rfl⟩ }
  finished := by rfl
  code := rfl
  hasAt := HasAt.whole _

/-- The code generator behind the chain. -/
def sampleChainCg : CgFn :=
  { sampleSwitch with
    code := sampleSwitch.code.take 4,
    blockOffsets := [0, 0, 0] }

/-- The chain is the beginning of the finished code. -/
theorem sampleChainCg_later : Later sampleChainCg sampleSwitch where
  code := by decide
  fixups := ⟨[], by rfl, fun _ h => absurd h List.not_mem_nil⟩
  data := List.prefix_refl _
  tables := ⟨[], by rfl, fun _ h => absurd h List.not_mem_nil⟩

/-- The chain reads no data. -/
theorem sampleSwitch_holdsData (x : Word) : HoldsData { sampleSwitch with code := sampleSwitchCode } sampleSwitchImage
    (sampleSwitchFrame x) 0 0 where
  size := rfl
  fits := by decide
  bytes k hk := absurd hk (Nat.not_lt_zero k)

/-- Values on both sides of zero, with a hole. -/
def sampleTableCases : List (BitVec 32 × Nat) := [(-2, 1), (-1, 2), (1, 1), (2, 2)]

/-- The value 0 goes to the place of block 1; a table over both signs is emitted, and has the block of -1. -/
theorem switch_forms_agree_sampleSwitch : (∃ f', GoesVia sampleSwitch sampleSwitchImage quietHost 0 0 0 (sampleSwitchFrame 0) 4 f') ∧
    ∃ cg', cgSwitchTable 32 5 0 (-2) 5 (sampleTableCases.map caseOperand) sampleSwitchCg = .val () cg' ∧
      DispatchesTo Unit Unit sampleSwitchCg cg' 5 ((-1 : BitVec 32).setWidth 32) 0 20 2 := by
  constructor
  · obtain ⟨hwp, _⟩ := switch_forms_agree Unit Unit (by decide) sampleSwitchCg_atDispatch (show (sampleCases.map Prod.fst).Nodup by decide) 2
    have hrun : cgSwitchChain 8 5 2 (sampleCases.map caseOperand) sampleSwitchCg = .val () sampleChainCg := rfl
    unfold Exec.wp at hwp
    rw [hrun] at hwp
    obtain ⟨f', _, hgo⟩ := hwp.2 0 quietHost (sampleSwitchFrame 0) sampleChainCg_later sampleSwitch_inImage (by decide)
      (sampleSwitch_holdsData 0) rfl rfl
    exact ⟨f', hgo⟩
  · obtain ⟨_, htable⟩ := switch_forms_agree Unit Unit (by decide) sampleSwitchCg_atDispatch
      (show (sampleTableCases.map Prod.fst).Nodup by decide) 0
    have hwp := htable (-2) 5 (by decide)
    unfold Exec.wp at hwp
    refine ⟨_, rfl, hwp.2 (-1)⟩

/-! ## Other conditions -/

/-- Whatever the register of the condition has, both forms go to one block, and this is the one selected for the low bits exactly if there
are no others, or the case of the low bits, if any, is for the default block as well. -/
theorem switch_unnormalised (κ W : Type) {N : Nat} (hN : N < 32) {cg : CgFn} {condReg : Byte} (hcg : cg.AtDispatch condReg)
    {cases : List (BitVec N × Nat)} (hdistinct : (cases.map Prod.fst).Nodup) (dflt : Nat) (x : Word) :
    Exec.wp (cgSwitchChain N condReg dflt (cases.map caseOperand)) (fun _ cg' => OnlyAdds cg cg' ∧
        ∃ bb, DispatchesTo κ W cg cg' condReg x 0 0 bb ∧
          (bb = select (x.setWidth N) dflt cases ↔ x.toNat < 2 ^ N ∨ ∀ c ∈ cases, c.1 = x.setWidth N → c.2 = dflt))
      (fun e _ => e = .scratchExhausted ∧ cg.nextReg + 1 > cgMaxEmitReg) cg ∧
    ∀ lo nRange, switchTable N ((cases.map caseOperand).map Prod.fst) = some (lo, nRange) →
      Exec.wp (cgSwitchTable N condReg dflt lo nRange (cases.map caseOperand)) (fun _ cg' => OnlyAdds cg cg' ∧
          ∃ bb, DispatchesTo κ W cg cg' condReg x cg.dataBytes.length (4 * nRange) bb ∧
            (bb = select (x.setWidth N) dflt cases ↔ x.toNat < 2 ^ N ∨ ∀ c ∈ cases, c.1 = x.setWidth N → c.2 = dflt))
        (fun e _ => e = .scratchExhausted ∧ cg.nextReg + 8 > cgMaxEmitReg) cg := by
  have hiff : dispatchTarget x dflt cases = select (x.setWidth N) dflt cases ↔ _ := dispatchTarget_eq_select (Nat.le_of_lt hN) hdistinct x
  constructor
  · refine Exec.wp_mono ?_ (fun _ _ he => he) (wp_chain_dispatches κ W (by omega) hcg dflt)
    intro _ cg' ⟨hadds, hgo⟩
    exact ⟨hadds, _, hgo x _ _, hiff⟩
  · intro lo nRange htable
    refine Exec.wp_mono ?_ (fun _ _ he => he) (wp_table_dispatches κ W (by omega) hcg dflt hdistinct htable)
    intro _ cg' ⟨hadds, _, hgo⟩
    exact ⟨hadds, _, hgo x, hiff⟩

/-- For 256 in the register of a byte the chain goes elsewhere. -/
theorem switch_unnormalised_sampleSwitch : ∃ bb, DispatchesTo Unit Unit sampleSwitchCg sampleChainCg 5 256 0 0 bb ∧
    bb ≠ select ((256 : Word).setWidth 8) 2 sampleCases := by
  obtain ⟨hwp, _⟩ := switch_unnormalised Unit Unit (by decide) sampleSwitchCg_atDispatch (show (sampleCases.map Prod.fst).Nodup by decide) 2
    256
  have hrun : cgSwitchChain 8 5 2 (sampleCases.map caseOperand) sampleSwitchCg = .val () sampleChainCg := rfl
  unfold Exec.wp at hwp
  rw [hrun] at hwp
  obtain ⟨_, bb, hgo, hiff⟩ := hwp
  exact ⟨bb, hgo, fun h => absurd (hiff.mp h) (by decide)⟩

/-- The low bits of 256 select block 1, but the machine goes to block 2 and halts there. -/
theorem sampleSwitch_dirty : select ((256 : Word).setWidth 8) 2 sampleCases = 1 ∧ sampleSwitch.offsetOf 1 = 4 ∧
    ∃ f' h t, GoesVia sampleSwitch sampleSwitchImage quietHost 0 0 0 (sampleSwitchFrame 256) 5 f' ∧
      Threaded.step sampleSwitchImage quietHost { f' with pc := BitVec.ofNat 32 5 } = .stop h t ∧ finalPlace sampleSwitch 5 = 5 := by
  refine ⟨by decide, by decide, ?_⟩
  have hwp : Exec.wp (cgSwitchChain 8 5 2 (sampleCases.map caseOperand)) _ _ sampleSwitchCg :=
    wp_chain_dispatches Unit Unit (by decide) sampleSwitchCg_atDispatch 2
  have hrun : cgSwitchChain 8 5 2 (sampleCases.map caseOperand) sampleSwitchCg = .val () sampleChainCg := rfl
  unfold Exec.wp at hwp
  rw [hrun] at hwp
  obtain ⟨f', _, hgo⟩ := hwp.2 256 0 0 quietHost (sampleSwitchFrame 256) sampleChainCg_later sampleSwitch_inImage (by decide)
    (sampleSwitch_holdsData 256) rfl rfl
  have htarget : dispatchTarget 256 2 sampleCases = 2 := by decide
  rw [htarget] at hgo
  have hhalt : sampleSwitchImage.code[5]? = some (encI24 .halt 0) := rfl
  refine ⟨f', ⟨.ok, some (f'.regs 0)⟩, { f' with pc := 6 }, hgo, ?_, by decide⟩
  rw [step_fetch (l := .lHalt) rfl hhalt rfl]
  rfl

end CronoVM
