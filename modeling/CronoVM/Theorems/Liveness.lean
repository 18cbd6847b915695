import CronoVM.Lemmas.LivePaths
import CronoVM.Theorems.Registers

/-!
# The liveness equations

For a function with any blocks and edges the passes end, at the least solution of the equations of the liveness, and that is what the
paths of the function say.
-/

namespace CronoVM

open Checked Ir

/-- `live_in[bb] = use[bb] ∪ (live_out[bb] − def[bb])`, and
`live_out[P] = ∪_{S ∈ succ(P)} ((live_in[S] − phi_def[S]) ∪ phi_use(P,S))`. -/
structure LiveSolution (cg : Cg) (fn : Func) (live : Nat → BlockLive) : Prop where
  liveIn : ∀ b < fn.blocks.length, ∀ k, (live b).liveIn.test k = true ↔
    (cgSets cg fn b).use.test k = true ∨ (live b).liveOut.test k = true ∧ ¬(cgSets cg fn b).defs.test k = true
  liveOut : ∀ b bb, fn.blocks[b]? = some bb → ∀ k, (live b).liveOut.test k = true ↔
    ∃ succ ∈ bb.successors, ∃ si sb, fn.blockIndex succ = some si ∧ fn.blocks[si]? = some sb ∧
      ((live si).liveIn.test k = true ∧ ¬(cgSets cg fn si).phiDef.test k = true ∨
        ∃ phi ∈ sb.phis, ∃ v, incomingFrom phi bb.id = some v ∧ cg.spillBitOf v = some k)

/-- The sets of a block hold the registers that are read on a path from its ends before they are written. -/
structure LiveOnPaths (cg : Cg) (fn : Func) (live : Nat → BlockLive) : Prop where
  liveOut : ∀ b bb, fn.blocks[b]? = some bb → ∀ k, (live b).liveOut.test k = true ↔ (bitGraph cg fn).Live k ⟨bb.id, bb.body.length⟩
  liveIn : ∀ b bb, fn.blocks[b]? = some bb → ∀ k, (live b).liveIn.test k = true → (bitGraph cg fn).Live k ⟨bb.id, 0⟩
  head : ∀ b bb, fn.blocks[b]? = some bb → bb.id ≠ fn.entryId → ∀ k, (bitGraph cg fn).Live k ⟨bb.id, 0⟩ →
    (live b).liveIn.test k = true ∨ ∃ phi ∈ bb.phis, cg.spillBitOf (.loc phi.result) = some k

namespace LivenessAux

variable {cg : Cg} {fn : Func} {live : Nat → BlockLive}

/-- What one turn puts into the set of a block. -/
theorem test_liveIn_cell (b k : Nat) : (cgLiveCell cg fn live b).liveIn.test k = true ↔
    (cgSets cg fn b).use.test k = true ∨ (cgNewOut cg fn live b).test k = true ∧ ¬(cgSets cg fn b).defs.test k = true := by
  have hin : (cgLiveCell cg fn live b).liveIn = (cgSets cg fn b).use.or ((cgNewOut cg fn live b).andnot (cgSets cg fn b).defs) := rfl
  rw [hin, CgBits.test_or, CgBits.test_andnot, Bool.or_eq_true_iff, Bool.and_eq_true_iff, Bool.not_eq_true', Bool.not_eq_true]

/-- Sets that no turn changes solve the equations. -/
theorem solution_of_cells (h : ∀ b < fn.blocks.length, live b = cgLiveCell cg fn live b) : LiveSolution cg fn live := by
  have hout : ∀ b < fn.blocks.length, (live b).liveOut = cgNewOut cg fn live b := fun b hb => congrArg BlockLive.liveOut (h b hb)
  refine ⟨fun b hb k => ?_, fun b bb hbb k => ?_⟩
  · rw [congrArg BlockLive.liveIn (h b hb), test_liveIn_cell, hout b hb]
  · rw [hout b (List.getElem?_eq_some_iff.mp hbb).1, test_cgNewOut _ hbb]

/-- A solution is not changed by any turn. -/
theorem closed_of_solution (h : LiveSolution cg fn live) : Sweeps.Closed (cgLiveCell cg fn) live := by
  intro b
  cases hb : fn.blocks[b]? with
  | none =>
    have hnew : cgNewOut cg fn live b = .empty := by
      unfold cgNewOut
      rw [hb]
    have hsets : (cgSets cg fn b).use = .empty := by
      unfold cgSets
      rw [hb]
    refine ⟨fun k hk => ?_, fun k hk => ?_⟩
    · rw [test_liveIn_cell, hnew, hsets, CgBits.test_empty] at hk
      simp at hk
    · have hk' : (cgNewOut cg fn live b).test k = true := hk
      rw [hnew, CgBits.test_empty] at hk'
      nomatch hk'
  | some bb =>
    have hlt := (List.getElem?_eq_some_iff.mp hb).1
    have hout : cgNewOut cg fn live b = (live b).liveOut := by
      refine CgBits.ext_test fun k => Bool.eq_iff_iff.mpr ?_
      rw [test_cgNewOut _ hb, h.liveOut b bb hb]
    refine ⟨fun k hk => ?_, fun k hk => ?_⟩
    · rw [test_liveIn_cell, hout] at hk
      exact (h.liveIn b hlt k).mpr hk
    · have hk' : (cgNewOut cg fn live b).test k = true := hk
      rwa [hout] at hk'

/-- The sets at the end of the passes are those of the paths. -/
theorem paths_of_run (hfn : fn.Ssa) {fuel : Nat} (h : cgComputeLiveness cg fn fuel = some live) : LiveOnPaths cg fn live := by
  obtain ⟨hsolves, hleast⟩ := cgComputeLiveness_least h
  refine ⟨fun b bb hb k => ⟨(live_of_sets hfn hleast hb k).2, fun hlive => ?_⟩, fun b bb hb k => (live_of_sets hfn hleast hb k).1,
    fun b bb hb hentry k hlive => ?_⟩
  · have hend := liveThrough_of_live hfn hsolves hlive hb rfl
    rwa [List.drop_length] at hend
  · by_cases hphi : (cgSets cg fn b).phiDef.test k = true
    · exact Or.inr ((test_phiDef_of hfn hb k).mp hphi)
    · have hhead := liveThrough_of_live hfn hsolves hlive hb rfl
      exact Or.inl (liveIn_of_liveThrough hb hentry (hsolves b (List.getElem?_eq_some_iff.mp hb).1) hhead hphi)

end LivenessAux

open LivenessAux

/-- The passes end with the least solution, which is what is live on the paths. -/
theorem liveness_least_solution (cg : Cg) (fn : Func) (hfn : fn.Ssa) (fuel : Nat) (hfuel : 512 * fn.blocks.length < fuel) :
    ∃ live, cgComputeLiveness cg fn fuel = some live ∧ LiveSolution cg fn live ∧
      (∀ live', LiveSolution cg fn live' → ∀ b k, ((live b).liveIn.test k = true → (live' b).liveIn.test k = true) ∧
        ((live b).liveOut.test k = true → (live' b).liveOut.test k = true)) ∧
      LiveOnPaths cg fn live := by
  obtain ⟨live, h⟩ := cgComputeLiveness_exists cg fn hfuel
  obtain ⟨hsolves, hleast⟩ := cgComputeLiveness_least h
  refine ⟨live, h, solution_of_cells hsolves, fun live' hlive' b k => ?_, paths_of_run hfn h⟩
  have hle := hleast live' (closed_of_solution hlive') b
  exact ⟨hle.1 k, hle.2 k⟩

theorem liveness_least_solution_loop : ∃ cg live, cgPreAllocFunction loopFn freshCg = .val () cg ∧
    cgComputeLiveness { cg with ssaRegHigh := cg.nextReg } loopFn 1537 = some live ∧
      LiveOnPaths { cg with ssaRegHigh := cg.nextReg } loopFn live := by
  obtain ⟨cg, hpre⟩ := loopFn_preAlloc
  obtain ⟨live, h, -, -, hpaths⟩ := liveness_least_solution { cg with ssaRegHigh := cg.nextReg } loopFn loopFn_ssa 1537 (by decide)
  exact ⟨cg, live, hpre, h, hpaths⟩

end CronoVM
