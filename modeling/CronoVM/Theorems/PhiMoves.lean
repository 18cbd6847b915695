import CronoVM.Lemmas.PhiEdge
import CronoVM.Theorems.Safety

/-!
# Phi lowering is a parallel copy

The code emitted for an edge leaves in the home of each phi the value its incoming value had before the first instruction, whatever
locations the moves share.
-/

namespace CronoVM

open Checked Ir

variable {κ W : Type}

/-! ## Values of phis -/

/-- In `f'` the home holds the value `sval` has in `f`. -/
def HoldsValue (cg : Cg) (f f' : Frame κ W) (home : Home) (sval : Val) : Prop :=
  match home.i64Slot with
  | some d => (f'.heap.word (slotAddr cg f' d), f'.heap.word (slotAddr cg f' (d + 1))) = wideWords cg f sval
  | none => homeWord cg f' home = operandWord cg f sval

namespace PhiAux

variable {cg : Cg} {f f' : Frame κ W} {home : Home} {sval : Val}

theorem wideSrcs_value (d d' : Loc) : (PhiMove.value cg f { dst := d, src := (wideSrcs cg sval).1 },
    PhiMove.value cg f { dst := d', src := (wideSrcs cg sval).2 }) = wideWords cg f sval := by
  unfold wideSrcs wideWords PhiMove.value
  cases (cg.lookup sval).bind Home.i64Slot with
  | some s => rfl
  | none => cases sval.cgWideConstWords <;> rfl

/-- A scalar source is its value. -/
theorem scalarSrc_value (d : Loc) : PhiMove.value cg f { dst := d, src := scalarSrc cg sval } = operandWord cg f sval := by
  unfold scalarSrc PhiMove.value
  cases sval with
  | loc l =>
    simp only [Cg.lookup, operandWord]
    cases hhome : cg.home? l with
    | some home => simp only [Option.map_some, Option.getD_some, locWord_home]
    | none => simp [Val.isUndef, hhome]
  | block id => rfl
  | const c => cases c <;> rfl

/-- Where all moves of a home have their words, the home holds the value. -/
theorem holdsValue (h : ∀ m ∈ homeMoves cg home sval, locWord cg f' m.dst = m.value cg f) : HoldsValue cg f f' home sval := by
  unfold homeMoves at h
  unfold HoldsValue
  cases hslot : home.i64Slot with
  | some d =>
    simp only [hslot, List.mem_cons, List.not_mem_nil, or_false, forall_eq_or_imp, forall_eq] at h
    rw [← wideSrcs_value (.slot d) (.slot (d + 1)), ← h.1, ← h.2]
    rfl
  | none =>
    simp only [hslot, List.mem_singleton, forall_eq] at h
    rw [← scalarSrc_value (cgPhiDstLoc home), ← h, locWord_home]

variable {moves : List PhiMove} {pred : Nat} {phis : List Inst}

/-- A move of a location to itself has its word: no other move writes there. -/
theorem self_value (hok : cg.Ok) (hdistinct : DistinctDsts moves) (hmoves : MovesOk cg cg.nextReg (moves.filter PhiMove.moves))
    (hch : f.ChangesOnly cg cg.nextReg (DstOf (moves.filter PhiMove.moves)) f') {m : PhiMove} (hm : m ∈ moves)
    (hself : m.src = .loc m.dst) (hloc : Loc.Ok cg cg.nextReg m.dst) : locWord cg f' m.dst = m.value cg f := by
  have hnot : ∀ m' ∈ moves.filter PhiMove.moves, m'.dst ≠ m.dst := by
    intro m' hm' he
    obtain ⟨hin, hmove⟩ := List.mem_filter.mp hm'
    obtain rfl : m' = m := List.inj_on_of_nodup_map hdistinct hin hm he
    simp [PhiMove.moves, hself] at hmove
  have hval : m.value cg f = locWord cg f m.dst := by rw [PhiMove.value, hself]
  rw [hval]
  refine hch.locWord_eq hok.next_le ?_ hloc ?_
  · rintro ⟨m', hm', he⟩
    have hdst := (hmoves.each m' hm').dst_ok
    rw [← he] at hdst
    exact hdst.ne_sp hok.next_le rfl
  · rintro ⟨m', hm', he⟩
    exact hnot m' hm' he.symm

/-- The moves of the edge bring each phi its value. -/
theorem edge_holds (hok : cg.Ok) (hdistinct : DistinctDsts (edgeMoves cg pred phis))
    (hmoves : MovesOk cg cg.nextReg ((edgeMoves cg pred phis).filter PhiMove.moves))
    (hch : f.ChangesOnly cg cg.nextReg (DstOf ((edgeMoves cg pred phis).filter PhiMove.moves)) f')
    (hvalues : ∀ m ∈ (edgeMoves cg pred phis).filter PhiMove.moves, locWord cg f' m.dst = m.value cg f) {phi : Inst} (hphi : phi ∈ phis)
    (heh : phi.isEh = false) (hsval : incomingFrom phi pred = some sval) (hhome : cg.home? phi.result = some home) :
    HoldsValue cg f f' home sval := by
  refine holdsValue fun m hm => ?_
  have hmem : m ∈ edgeMoves cg pred phis := by
    refine List.mem_flatMap.mpr ⟨phi, hphi, ?_⟩
    rw [phiMovesOf, if_neg (by simp [heh])]
    simp only [hsval, hhome]
    exact hm
  by_cases hmove : m.moves = true
  · exact hvalues m (List.mem_filter.mpr ⟨hmem, hmove⟩)
  · have hself : m.src = .loc m.dst := by simpa [PhiMove.moves] using hmove
    exact self_value hok hdistinct hmoves hch hmem hself (edgeMove_ok hok hmem).1.1

end PhiAux

/-! ## The theorem -/

/-- `cg_emit_phi_moves` is a parallel copy. Where the destinations of an edge are distinct and code is emitted, running it from any frame
whose stack frame lies in memory leaves in each phi the value that its incoming value had, and changes nothing else but scratch
registers; every move that moves something is emitted once, and no array overflows. No code is emitted only for a phi without a home,
with a wide value that has no words, or after 1,023 moves, for a constant that has no register, or where fewer registers are left than the
two of the sequence and those of a constant. -/
theorem phiMoves_parallel (img : Image κ) (host : Host κ W) (hcode : img.code.length = img.codeCount.toNat) (cg : Cg) (hok : cg.Ok)
    (f : Frame κ W) (hin : InFrame cg img f) (pred : Nat) (target : Ir.Block)
    (hdistinct : DistinctDsts (edgeMoves cg pred target.phis)) :
    Exec.wp (cgEmitPhiMoves pred target) (fun r cg' =>
      r.1 = (edgeMoves cg pred target.phis).filter PhiMove.moves ∧ r.2.Perm (List.range r.1.length) ∧
        ∃ f', Emitted img host cg cg' f f' ∧
          (∀ phi ∈ target.phis, phi.isEh = false → ∀ sval home, incomingFrom phi pred = some sval → cg.home? phi.result = some home →
            HoldsValue cg f f' home sval) ∧
          f.ChangesOnly cg cg.nextReg (DstOf r.1) f') (cg.EdgeStops pred target.phis) cg := by
  refine Exec.wp_mono ?_ (fun _ _ he => he) (wp_cgEmitPhiMoves host hcode hok hin hdistinct)
  rintro ⟨moves, emitted⟩ cg' ⟨rfl, hperm, _, _, hmoves, f', hdone⟩
  refine ⟨rfl, hperm, f', hdone.emitted, ?_, hdone.changes⟩
  intro phi hphi heh sval home hsval hhome
  exact PhiAux.edge_holds hok hdistinct hmoves hdone.changes hdone.values hphi heh hsval hhome

/-! ## An edge -/

/-- Two values in R1 and R2, one in slot 0, two of 64 bits in slots 1 and 2 and in slots 3 and 4. -/
def sampleEdgeCg : Cg where
  code := []
  map := [(.inst 1, { reg := 1 }), (.inst 2, { reg := 2 }), (.inst 3, { reg := 0, valSlot := some 0 }),
    (.inst 4, { reg := 0, i64Slot := some 1 }), (.inst 5, { reg := 0, i64Slot := some 3 })]
  nextReg := 3
  freeList := []
  zeroReg := cgRegZero
  allocaBytes := 0
  spillBytes := 0
  valSpillCount := 5
  frameBytes := 20
  ssaRegHigh := 3
  globals := []
  funcs := []

/-- A loop head: R1 and R2 change places, slot 0 gets a constant, and the value in slots 1 and 2 the one in slots 3 and 4. -/
def sampleLoopHead : Ir.Block where
  id := 1
  insts := [
    { id := 1, op := .phi, ty := .int 32, operands := [.loc (.inst 2)], incoming := [1] },
    { id := 2, op := .phi, ty := .int 32, operands := [.loc (.inst 1)], incoming := [1] },
    { id := 3, op := .phi, ty := .int 32, operands := [.const (.int 32 70000)], incoming := [1] },
    { id := 4, op := .phi, ty := .int 64, operands := [.loc (.inst 5)], incoming := [1] }]

/-- The code of the edge from the loop head to itself. -/
def sampleEdgeCode : List Word :=
  match cgEmitPhiMoves 1 sampleLoopHead sampleEdgeCg with
  | .val _ cg => cg.code
  | _ => []

def sampleEdgeImage : Image Unit := codeImage sampleEdgeCode

def sampleEdgeFrame : Frame Unit Unit where
  regs r := if r = 1 then 7 else if r = 2 then 9 else 0
  heap := sampleEdgeImage.heap
  importFns := []
  world := ()
  pc := 0

/-- The homes are below the scratch registers. -/
theorem sampleEdgeCg_ok : sampleEdgeCg.Ok :=
  .of_map rfl rfl (by decide) (by decide) (by decide) (by decide)

theorem phiMoves_parallel_sampleEdge : ∃ moves emitted cg' f',
    cgEmitPhiMoves 1 sampleLoopHead sampleEdgeCg = .val (moves, emitted) cg' ∧ emitted.Perm (List.range 5) ∧
      Emitted sampleEdgeImage quietHost sampleEdgeCg cg' sampleEdgeFrame f' ∧ f'.regs 1 = 9 ∧ f'.regs 2 = 7 := by
  have hlen : sampleEdgeImage.code.length = sampleEdgeImage.codeCount.toNat := by decide +kernel
  have hcopy := phiMoves_parallel sampleEdgeImage quietHost hlen sampleEdgeCg sampleEdgeCg_ok sampleEdgeFrame ⟨rfl, by decide⟩ 1
    sampleLoopHead (by decide +kernel)
  have hval : (cgEmitPhiMoves 1 sampleLoopHead sampleEdgeCg).holds (fun r _ => r.1.length == 5) = true := by decide +kernel
  obtain ⟨⟨moves, emitted⟩, cg', hrun, hfive⟩ := Outcome.exists_of_holds hval
  obtain ⟨-, hperm, f', hem, hvalues, -⟩ := Exec.of_wp hcopy hrun
  have hfive : moves.length = 5 := beq_iff_eq.mp hfive
  refine ⟨moves, emitted, cg', f', hrun, hfive ▸ hperm, hem, ?_, ?_⟩
  · exact hvalues _ (List.mem_cons_self) rfl (.loc (.inst 2)) { reg := 1 } rfl rfl
  · exact hvalues _ (List.mem_cons_of_mem _ List.mem_cons_self) rfl (.loc (.inst 1)) { reg := 2 } rfl rfl

end CronoVM
