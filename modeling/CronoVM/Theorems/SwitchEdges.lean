import CronoVM.Lemmas.SwitchEdges
import CronoVM.Theorems.PhiMoves

/-!
# The edges of a switch

The moves of all successors run before the dispatch, whichever of them is taken. The edge taken is as it should be exactly if these
copies, one after the other, do what its own does, and the dispatch still finds the condition.
-/

namespace CronoVM

open Checked Ir

variable {κ W : Type}

/-! ## A switch and its edges -/

/-- `i` is a `switch` over `cond`, an integer of `N` bits, with the default block and cases. -/
structure IsSwitch (fn : Func) (i : Inst) {N : Nat} (cond : Val) (dflt : Nat) (cases : List (BitVec N × Nat)) : Prop where
  operands : i.operands = cond :: cases.map fun c => (caseOperand c).1
  successors : i.successors = dflt :: cases.map Prod.snd
  width : fn.typeOf cond = .int N
  distinct : (cases.map Prod.fst).Nodup

/-- The edge to `t` is taken: the switch has gone to `t`, its phis have their values from before, and nothing else has changed but
scratch registers. -/
structure EdgeTaken (cg : Cg) (fn : Func) (pred t bb : Nat) (f f' : Frame κ W) : Prop where
  block : bb = t
  phis : ∀ phi ∈ (fn.block t).phis, phi.isEh = false → ∀ sval home, incomingFrom phi pred = some sval → cg.home? phi.result = some home →
    HoldsValue cg f f' home sval
  others : f.ChangesOnly cg cg.nextReg (DstOf (succMoves cg fn pred t)) f'

/-- The copies of all edges, one after the other, leave the words that the copy of the edge to `t` alone leaves, and the word then in the
register of the condition is dispatched to `t`. -/
structure EdgesIsolated (cg : Cg) (fn : Func) (pred : Nat) {N : Nat} (cond : Val) (dflt : Nat) (cases : List (BitVec N × Nat))
    (succs : List Nat) (t : Nat) (f : Frame κ W) : Prop where
  words : ∀ s ∈ succs, ∀ m ∈ succMoves cg fn pred s,
    edgesWords cg f fn pred succs (locWord cg f) m.dst = copyWords cg f (succMoves cg fn pred t) (locWord cg f) m.dst
  block : dispatchTarget (condWord cg f (edgesWords cg f fn pred succs (locWord cg f)) cond) dflt cases = t

/-- In particular, the edges are isolated where the phis of the other successors are in place, the copy of the taken edge is done once or
may be repeated, and the condition has no bits above its width and is not in the register of a phi that gets another word. -/
theorem edgesIsolated_of_in_place {cg : Cg} {fn : Func} {pred N : Nat} {cond : Val} {dflt t : Nat} {cases : List (BitVec N × Nat)}
    {succs : List Nat} {f : Frame κ W} (ht : t ∈ succs)
    (hothers : ∀ s ∈ succs, s ≠ t → ∀ m ∈ succMoves cg fn pred s, m.moves = false)
    (hagain : succs.count t = 1 ∨ ∀ env : Loc → Word, copyWords cg f (succMoves cg fn pred t) (copyWords cg f (succMoves cg fn pred t) env) =
      copyWords cg f (succMoves cg fn pred t) env)
    (hcond : ∀ home, cg.lookup cond = some home → home.valSlot = none →
      copyWords cg f (succMoves cg fn pred t) (locWord cg f) (.reg home.reg) = operandWord cg f cond)
    (hblock : dispatchTarget (operandWord cg f cond) dflt cases = t) : EdgesIsolated cg fn pred cond dflt cases succs t f := by
  have hwords : edgesWords cg f fn pred succs (locWord cg f) = _ := edgesWords_of_in_place ht hothers hagain
  refine ⟨fun s hs m hm => by rw [hwords], ?_⟩
  have hword : condWord cg f (edgesWords cg f fn pred succs (locWord cg f)) cond = operandWord cg f cond := by
    unfold condWord
    cases hlookup : cg.lookup cond with
    | none => rfl
    | some home =>
      dsimp only
      split
      case isTrue hslot => rw [hwords, hcond home hlookup hslot]
      case isFalse => rfl
  rw [hword, hblock]

namespace SwitchAux

variable {cg : Cg} {fn : Func} {pred : Nat} {succs : List Nat} {f f' : Frame κ W} {t : Nat}

/-- The moves of a home have their words exactly if the home has its value. -/
theorem holdsValue_iff {home : Home} {sval : Val} :
    HoldsValue cg f f' home sval ↔ ∀ m ∈ homeMoves cg home sval, locWord cg f' m.dst = m.value cg f := by
  refine ⟨fun h => ?_, PhiAux.holdsValue⟩
  unfold HoldsValue at h
  unfold homeMoves
  cases hslot : home.i64Slot with
  | some d =>
    simp only [hslot] at h ⊢
    rw [← PhiAux.wideSrcs_value (.slot d) (.slot (d + 1)), Prod.mk.injEq] at h
    intro m hm
    simp only [List.mem_cons, List.not_mem_nil, or_false] at hm
    rcases hm with rfl | rfl
    · exact h.1
    · exact h.2
  | none =>
    simp only [hslot] at h ⊢
    intro m hm
    obtain rfl := List.mem_singleton.mp hm
    rw [PhiAux.scalarSrc_value, ← h, locWord_home]

/-- The phis have their values exactly if each move of the edge has its word. -/
theorem phis_iff : (∀ phi ∈ (fn.block t).phis, phi.isEh = false → ∀ sval home, incomingFrom phi pred = some sval →
      cg.home? phi.result = some home → HoldsValue cg f f' home sval) ↔
    ∀ m ∈ succMoves cg fn pred t, locWord cg f' m.dst = m.value cg f := by
  constructor
  · intro h m hm
    obtain ⟨phi, hphi, hm⟩ := List.mem_flatMap.mp hm
    unfold phiMovesOf at hm
    split at hm
    case isTrue => exact absurd hm List.not_mem_nil
    case isFalse heh =>
      split at hm
      case h_1 sval home hsval hhome => exact holdsValue_iff.mp (h phi hphi (by simpa using heh) sval home hsval hhome) m hm
      case h_2 => exact absurd hm List.not_mem_nil
  · intro h phi hphi heh sval home hsval hhome
    refine holdsValue_iff.mpr fun m hm => h m (List.mem_flatMap.mpr ⟨phi, hphi, ?_⟩)
    rw [phiMovesOf, if_neg (by simp [heh])]
    simp only [hsval, hhome]
    exact hm

/-- The value a move copies is the word at its source. -/
theorem value_eq_wordIn (m : PhiMove) : m.value cg f = m.wordIn cg f (locWord cg f) := by
  unfold PhiMove.value PhiMove.wordIn
  cases m.src <;> rfl

/-- A word in a slot that stays keeps its bytes. -/
theorem byte_of_slot {k i : Nat} (hsp : f'.regs regSp = f.regs regSp) (hword : locWord cg f' (.slot k) = locWord cg f (.slot k)) (hi : i < 4) :
    f'.heap.byte (slotAddr cg f k + i) = f.heap.byte (slotAddr cg f k + i) := by
  simp only [locWord, slotAddr_of_sp hsp, Mem.word] at hword
  rw [← leByte_leWord (fun j => f'.heap.byte (slotAddr cg f k + j)) hi, hword,
    leByte_leWord (fun j => f.heap.byte (slotAddr cg f k + j)) hi]

variable {img : Image κ} {host : Host κ W} {cg₂ : Cg} {N dflt bb : Nat} {cases : List (BitVec N × Nat)} {cond : Val} {r : Byte} {f₂ : Frame κ W}

/-- What the code has done is right exactly if the edges are isolated. -/
theorem taken_iff (hok : cg.Ok) (hdistinct : ∀ s ∈ succs, DistinctDsts (succMoves cg fn pred s)) (ht : t ∈ succs)
    (hbefore : BeforeDispatch img host cg fn pred succs cond r f cg₂ f₂) (hag : f₂.AgreesOff (Scratch cg₂.nextReg) f')
    (hbb : bb = dispatchTarget (f₂.regs r) dflt cases) :
    EdgeTaken cg fn pred t bb f f' ↔ EdgesIsolated cg fn pred cond dflt cases succs t f := by
  have hdst : ∀ {s l}, DstOf (succMoves cg fn pred s) l → Loc.Ok cg cg.nextReg l := by
    rintro s l ⟨m, hm, rfl⟩
    exact (edgeMove_ok hok hm).1.1
  have hspdst : ∀ s, ¬DstOf (succMoves cg fn pred s) (.reg regSp) := fun s h => (hdst h).ne_sp hok.next_le rfl
  have hwords : ∀ l, Loc.Ok cg cg.nextReg l → locWord cg f' l = edgesWords cg f fn pred succs (locWord cg f) l := by
    intro l hl
    rw [← hbefore.edges.words l hl]
    exact locWord_agrees hbefore.edges.next_le hag (hl.mono hbefore.edges.next_ge)
  have hchanges : f.ChangesOnly cg cg.nextReg (fun l => ∃ s ∈ succs, DstOf (succMoves cg fn pred s) l) f' := by
    have hlast : f₂.ChangesOnly cg cg.nextReg (fun l => ∃ s ∈ succs, DstOf (succMoves cg fn pred s) l) f' :=
      ⟨hag.imports, hag.world, fun r hs _ => hag.regs r fun h => hs (h.mono hbefore.edges.next_ge), by rw [hag.heap], fun p _ => by rw [hag.heap]⟩
    exact hbefore.edges.changes.trans (fun ⟨s, _, h⟩ => hspdst s h) hlast
  rw [hbefore.cond] at hbb
  constructor
  · rintro ⟨hblock, hphis, hothers⟩
    refine ⟨fun s hs m hm => ?_, hbb ▸ hblock⟩
    have hl : Loc.Ok cg cg.nextReg m.dst := hdst ⟨m, hm, rfl⟩
    rw [← hwords m.dst hl]
    by_cases htaken : DstOf (succMoves cg fn pred t) m.dst
    · obtain ⟨m', hm', he⟩ := htaken
      rw [he, phis_iff.mp hphis m' hm', copyWords_of_mem (hdistinct t ht) hm', value_eq_wordIn]
    · rw [hothers.locWord_eq hok.next_le (hspdst t) hl htaken, copyWords_of_not_mem htaken]
  · rintro ⟨hisolated, hblock⟩
    have hsp : f'.regs regSp = f.regs regSp := hchanges.sp fun ⟨s, _, h⟩ => hspdst s h
    have hkept : ∀ {s l}, s ∈ succs → DstOf (succMoves cg fn pred s) l → ¬DstOf (succMoves cg fn pred t) l →
        locWord cg f' l = locWord cg f l := by
      rintro s _ hs ⟨m, hm, rfl⟩ hnot
      rw [hwords _ (hdst ⟨m, hm, rfl⟩), hisolated s hs m hm, copyWords_of_not_mem hnot]
    refine ⟨hbb.trans hblock, phis_iff.mpr fun m hm => ?_, hchanges.imports, hchanges.world, fun r hs hr => ?_, hchanges.size, fun p hp => ?_⟩
    · rw [hwords _ (hdst ⟨m, hm, rfl⟩), hisolated t ht m hm, copyWords_of_mem (hdistinct t ht) hm, value_eq_wordIn]
    · by_cases hother : ∃ s ∈ succs, DstOf (succMoves cg fn pred s) (.reg r)
      · obtain ⟨s, hs, h⟩ := hother
        exact hkept hs h hr
      · exact hchanges.regs r hs hother
    · by_cases hother : ∃ k, (∃ s ∈ succs, DstOf (succMoves cg fn pred s) (.slot k)) ∧ slotAddr cg f k ≤ p ∧ p < slotAddr cg f k + 4
      · obtain ⟨k, ⟨s, hs, h⟩, hlo, hhi⟩ := hother
        have hnot : ¬DstOf (succMoves cg fn pred t) (.slot k) := fun h' => by
          have := hp k h'
          omega
        have hbyte := byte_of_slot (i := p - slotAddr cg f k) hsp (hkept hs h hnot) (by omega)
        rwa [Nat.add_sub_cancel' hlo] at hbyte
      · refine hchanges.bytes p fun k hk => ?_
        have hout : ¬(slotAddr cg f k ≤ p ∧ p < slotAddr cg f k + 4) := fun h => hother ⟨k, hk, h⟩
        omega

/-- What a `switch` selects is one of its successors. -/
theorem select_mem {i : Inst} (hi : IsSwitch fn i cond dflt cases) (v : BitVec N) : select v dflt cases ∈ i.successors := by
  rw [hi.successors]
  by_cases hex : ∃ c ∈ cases, c.1 = v
  · obtain ⟨c, hc, rfl⟩ := hex
    rw [select_of_mem hi.distinct hc]
    exact List.mem_cons_of_mem _ (List.mem_map_of_mem hc)
  · rw [select_of_forall_ne fun c hc he => hex ⟨c, hc, he.symm⟩]
    exact List.mem_cons_self

/-- The parts of the code of a switch. -/
theorem of_cgSwitch {i : Inst} (hi : IsSwitch fn i cond dflt cases) {cg cg' : CgFn} (hrun : cgSwitch fn i cg = .val () cg') :
    ∃ r c₁ c₂, cgRegFor cond cg.toCg = .val r c₁ ∧ cgEmitAllPhiMoves fn cg.curBlock i.successors c₁ = .val () c₂ ∧
      cgSwitchDispatch N r dflt (cases.map caseOperand) { cg with toCg := c₂ } = .val () cg' := by
  have hcond : i.operand 0 = cond := by rw [Inst.operand, hi.operands, List.getD_cons_zero]
  have hcases : i.operands.tail.zip i.successors.tail = cases.map caseOperand := by
    rw [hi.operands, hi.successors, List.tail_cons, List.tail_cons, List.zip_map']
    rfl
  have hdflt : i.successors.headD 0 = dflt := by rw [hi.successors, List.headD_cons]
  unfold cgSwitch at hrun
  rw [hcond, hcases, hdflt, hi.width] at hrun
  obtain ⟨r, _, hlift₁, hrun⟩ := Exec.of_bind hrun
  obtain ⟨c₁, hreg, rfl⟩ := of_lift hlift₁
  obtain ⟨_, _, hget, hrun⟩ := Exec.of_bind hrun
  obtain ⟨rfl, rfl⟩ := Outcome.val.inj hget
  obtain ⟨_, _, hlift₂, hdispatch⟩ := Exec.of_bind hrun
  obtain ⟨c₂, hmoves, rfl⟩ := of_lift hlift₂
  exact ⟨r, c₁, c₂, hreg, hmoves, hdispatch⟩

/-! ### The run -/

section run

variable {i : Inst} {cg cg' final cg₂ : CgFn}

/-- The code of a switch runs through the copies of all edges and goes where the dispatch finds the condition. -/
theorem run (hi : IsSwitch fn i cond dflt cases) (hN : N ≤ 64) (hok : cg.Ok) (hcg : cg.UnderWay)
    (hphis : ∀ s ∈ i.successors, DistinctDsts (succMoves cg.toCg fn cg.curBlock s)) (hrun : cgSwitch fn i cg = .val () cg')
    (host : Host κ W) (hlater : Later cg' final) (himg : InImage final cg₂ img) (hblocks : ∀ b ∈ final.blocks, final.offsetOf b < final.code.length)
    (hin : InFrame cg.toCg img f) (hzero : f.regs cgRegZero = 0)
    (hdata : HoldsData cg₂ img f cg.dataBytes.length (cg'.dataBytes.length - cg.dataBytes.length))
    (hstack : cg'.dataBytes.length ≤ (f.regs regSp).toNat) : ∃ r c₁ f₁ f',
      BeforeDispatch img host cg.toCg fn cg.curBlock i.successors cond r f c₁ f₁ ∧ f₁.AgreesOff (Scratch c₁.nextReg) f' ∧
      Goes final img host cg.code.length f (final.offsetOf (dispatchTarget (f₁.regs r) dflt cases)) f' := by
  obtain ⟨r, c₁, c₂, hcond, hmoves, hdispatch⟩ := of_cgSwitch hi hrun
  obtain ⟨f₁, hbefore⟩ := beforeDispatch_of_run host himg.code hok hin hphis hcond hmoves
  obtain ⟨ws, n, rfl, hrun₁⟩ := hbefore.edges.emitted
  have hge : cg.nextReg ≤ n := hbefore.edges.next_ge
  obtain ⟨k, rfl⟩ := Nat.exists_eq_add_of_le hge
  have hadv : OnlyAdds cg (cg.advanced ws k) := onlyAdds_advanced cg ws k
  have hat : (cg.advanced ws k).AtDispatch r :=
    ⟨hbefore.held, hbefore.edges.next_le, hok.pool, hok.zero, hadv.later.underWay hcg⟩
  obtain ⟨hadds, hgo⟩ := Exec.of_wp (wp_cgSwitchDispatch κ W hN hat dflt hi.distinct) hdispatch
  have hlater₁ : Later (cg.advanced ws k) final := hadds.later.trans hlater
  have hlen : (cg.advanced ws k).code.length = cg.code.length + ws.length := List.length_append
  -- The code before the dispatch.
  have hnone : ∀ fx ∈ final.fixups, cg.code.length ≤ fx.instIndex → fx.instIndex < cg.code.length + ws.length → False := by
    intro fx hfx hlo hhi
    exact List.not_mem_nil (hlater₁.fixup_between hcg (List.append_nil _).symm hfx hlo (by rwa [hlen]))
  have hgo₁ : Goes final img host cg.code.length f (cg.code.length + ws.length) f₁ :=
    Goes.straight himg (hlater₁.hasAt rfl) hnone hrun₁
  -- What it leaves for the dispatch.
  have hchanges := hbefore.edges.changes
  have hzero₁ : f₁.regs cgRegZero = 0 := by
    refine (hchanges.regs _ (not_scratch_of_gt (Or.inl rfl)) ?_).trans hzero
    rintro ⟨s, _, m, hm, he⟩
    exact (edgeMove_ok hok hm).1.2 he.symm
  have hdata₁ : HoldsData cg₂ img f₁ cg.dataBytes.length (cg'.dataBytes.length - cg.dataBytes.length) := by
    refine ⟨hchanges.size.trans hdata.size, hdata.fits, fun k hk => ?_⟩
    rw [← hdata.bytes k hk]
    refine hchanges.bytes _ fun k' _ => Or.inl ?_
    rw [slotAddr]
    omega
  obtain ⟨f', hag, hgo₂⟩ := hgo (f₁.regs r) host f₁ hlater himg hblocks hdata₁ hzero₁ rfl
  rw [hlen] at hgo₂
  exact ⟨r, _, f₁, f', hbefore, hag, hgo₁.trans hgo₂.goes⟩

end run

end SwitchAux

/-! ## The edge taken -/

/-- Whatever the condition is, and whatever phis the successors have: the code of a switch goes to one block, and it has taken the edge to
the selected block as it should exactly if the edges are isolated. -/
theorem switch_edges {fn : Func} {i : Inst} {N : Nat} {cond : Val} {dflt : Nat} {cases : List (BitVec N × Nat)}
    (hi : IsSwitch fn i cond dflt cases) (hN : N ≤ 64) {cg cg' : CgFn} (hok : cg.Ok) (hcg : cg.UnderWay)
    (hphis : ∀ s ∈ i.successors, DistinctDsts (succMoves cg.toCg fn cg.curBlock s)) (hrun : cgSwitch fn i cg = .val () cg')
    {final cg₂ : CgFn} {img : Image κ} (host : Host κ W) (f : Frame κ W) (v : BitVec N) (hlater : Later cg' final)
    (himg : InImage final cg₂ img) (hblocks : ∀ b ∈ final.blocks, final.offsetOf b < final.code.length) (hin : InFrame cg.toCg img f)
    (hzero : f.regs cgRegZero = 0) (hdata : HoldsData cg₂ img f cg.dataBytes.length (cg'.dataBytes.length - cg.dataBytes.length))
    (hstack : cg'.dataBytes.length ≤ (f.regs regSp).toNat) :
    ∃ bb f', Goes final img host cg.code.length f (final.offsetOf bb) f' ∧
      (EdgeTaken cg.toCg fn cg.curBlock (select v dflt cases) bb f f' ↔
        EdgesIsolated cg.toCg fn cg.curBlock cond dflt cases i.successors (select v dflt cases) f) := by
  obtain ⟨r, c₁, f₁, f', hbefore, hag, hgo⟩ := SwitchAux.run hi hN hok hcg hphis hrun host hlater himg hblocks hin hzero hdata hstack
  exact ⟨_, f', hgo, SwitchAux.taken_iff hok hphis (SwitchAux.select_mem hi v) hbefore hag rfl⟩

/-! ## A loop -/

/-- The switch at the end of a loop: back to its head, block 1, for 0, else out of it. -/
def sampleLoopSwitch : Inst := { id := 2, op := .switch, ty := .void, operands := [.loc (.arg 0), .const (.int 8 0)], successors := [2, 1] }

/-- A loop whose head has a phi; it gets 7 on the way back, and block 2 reads it. -/
def sampleLoopFn : Func where
  name := "loop"
  params := [.int 8]
  vararg := false
  blocks := [
    { id := 3, insts := [] },
    { id := 1, insts := [{ id := 1, op := .phi, ty := .int 32, operands := [.const (.int 32 1), .const (.int 32 7)], incoming := [3, 0] }] },
    { id := 0, insts := [sampleLoopSwitch] },
    { id := 2, insts := [{ id := 3, op := .ret, ty := .void, operands := [.loc (.inst 1)] }] }]

/-- The condition in R3, the phi in R5. -/
def sampleLoopCg : CgFn where
  code := []
  map := [(.arg 0, { reg := 3 }), (.inst 1, { reg := 5 })]
  nextReg := 6
  freeList := []
  zeroReg := cgRegZero
  allocaBytes := 0
  spillBytes := 0
  valSpillCount := 0
  frameBytes := 0
  ssaRegHigh := 6
  globals := []
  funcs := []
  curBlock := 0
  blocks := [0, 1, 2]
  blockOffsets := [0, 0, 0]
  fixups := []
  tableFixups := []
  dataBytes := []

/-- The function behind the switch. -/
def sampleLoopDone : CgFn :=
  { sampleLoopCg with
    code := [encI16 .movi 8 7, encR .mov 5 8 0, encI16 .movi 8 0, encR .cmpEq 9 3 8, encBr .bne 9 cgRegZero 0, encI24 .jmp 0],
    nextReg := 8,
    fixups := [{ instIndex := 4, target := 1, shift := 24, bits := 8 }, { instIndex := 5, target := 2, shift := 8, bits := 24 }] }

/-- The function with blocks 1 and 2. -/
def sampleLoop : CgFn :=
  { sampleLoopDone with
    code := sampleLoopDone.code ++ [encI24 .halt 0, encI24 .halt 0],
    blockOffsets := [0, 6, 7] }

/-- Its code with the displacements. -/
def sampleLoopCode : List Word :=
  [encI16 .movi 8 7, encR .mov 5 8 0, encI16 .movi 8 0, encR .cmpEq 9 3 8, encBr .bne 9 cgRegZero 1, encI24 .jmp 1, encI24 .halt 0,
    encI24 .halt 0]

def sampleLoopImage : Image Unit :=
  { sampleEdgeImage with
    code := sampleLoopCode,
    codeCount := 8 }

/-- The machine before the switch, with `x` in R3 and 9 in the phi. -/
def sampleLoopFrame (x : Word) : Frame Unit Unit where
  regs r := if r = 3 then x else if r = 5 then 9 else 0
  heap := sampleLoopImage.heap
  importFns := []
  world := ()
  pc := 0

/-- The cases of the loop's switch. -/
def sampleLoopCases : List (BitVec 8 × Nat) := [(0, 1)]

/-- The latch of the loop is a `switch`. -/
theorem sampleLoop_isSwitch : IsSwitch sampleLoopFn sampleLoopSwitch (.loc (.arg 0)) 2 sampleLoopCases where
  operands := rfl
  successors := rfl
  width := rfl
  distinct := by decide

/-- The code generator gets through it. -/
theorem sampleLoopCg_run : cgSwitch sampleLoopFn sampleLoopSwitch sampleLoopCg = .val () sampleLoopDone := by rfl

/-- Its code is the beginning of the finished function. -/
theorem sampleLoop_later : Later sampleLoopDone sampleLoop where
  code := List.prefix_append _ _
  fixups := ⟨[], by rfl, fun _ h => absurd h List.not_mem_nil⟩
  data := List.prefix_refl _
  tables := ⟨[], by rfl, fun _ h => absurd h List.not_mem_nil⟩

/-- The image holds the finished code. -/
theorem sampleLoop_inImage : InImage sampleLoop { sampleLoop with code := sampleLoopCode } sampleLoopImage where
  wf := {
    code_lt := by decide
    distinct := by decide
    pos_lt := by decide
    target_mem := by decide
    offsets_length := rfl
    offsets_le := by decide
    word fx hfx := by
      simp only [sampleLoop, sampleLoopDone, List.mem_cons, List.not_mem_nil, or_false] at hfx
      rcases hfx with rfl | rfl
      · exact ⟨_, rfl, .cond .bne 9 cgRegZero (Or.inl rfl) rfl rfl⟩
      · exact ⟨_, rfl, .jump rfl rfl⟩ }
  finished := by rfl
  code := rfl
  hasAt := HasAt.whole _

theorem sampleLoopCg_ok : sampleLoopCg.toCg.Ok :=
  .of_map rfl rfl (by decide) (by decide) (by decide) (by decide)

/-- The frame is in memory. -/
theorem sampleLoop_inFrame (x : Word) : InFrame sampleLoopCg.toCg sampleLoopImage (sampleLoopFrame x) where
  size := rfl
  fits := by
    have hsp : (sampleLoopFrame x).regs regSp = 0 := rfl
    rw [hsp]
    decide

/-- The code reads no data. -/
theorem sampleLoop_holdsData (x : Word) : HoldsData { sampleLoop with code := sampleLoopCode } sampleLoopImage (sampleLoopFrame x) 0 0 where
  size := rfl
  fits := by decide
  bytes k hk := absurd hk (Nat.not_lt_zero k)

/-- No edge writes a location twice. -/
theorem sampleLoop_distinct : ∀ s ∈ sampleLoopSwitch.successors, DistinctDsts (succMoves sampleLoopCg.toCg sampleLoopFn 0 s) := by decide

/-- The way back is taken as it should be. -/
theorem switch_edges_sampleLoop : ∃ bb f', Goes sampleLoop sampleLoopImage quietHost 0 (sampleLoopFrame 0) (sampleLoop.offsetOf bb) f' ∧
    EdgeTaken sampleLoopCg.toCg sampleLoopFn 0 1 bb (sampleLoopFrame 0) f' := by
  obtain ⟨bb, f', hgo, hiff⟩ := switch_edges sampleLoop_isSwitch (by decide) sampleLoopCg_ok ⟨by decide, by decide⟩ sampleLoop_distinct
    sampleLoopCg_run quietHost (sampleLoopFrame 0) 0 sampleLoop_later sampleLoop_inImage (by decide) (sampleLoop_inFrame 0) rfl
    (sampleLoop_holdsData 0) (Nat.zero_le _)
  refine ⟨bb, f', hgo, hiff.mpr (edgesIsolated_of_in_place (by decide) (by decide) (Or.inl (by decide)) ?_ (by decide))⟩
  intro home hhome _
  obtain rfl : ({ reg := 3 } : Home) = home := Option.some.inj hhome
  rfl

/-- The way out is not: the phi of the head, which block 2 reads, has lost its 9. -/
theorem sampleLoop_way_out : ∃ f', Goes sampleLoop sampleLoopImage quietHost 0 (sampleLoopFrame 1) (sampleLoop.offsetOf 2) f' ∧
    select (1 : BitVec 8) 2 sampleLoopCases = 2 ∧ (sampleLoopFrame 1).regs 5 = 9 ∧ f'.regs 5 = 7 ∧
    ¬EdgeTaken sampleLoopCg.toCg sampleLoopFn 0 2 2 (sampleLoopFrame 1) f' := by
  obtain ⟨r, c₁, f₁, f', hbefore, hag, hgo⟩ := SwitchAux.run sampleLoop_isSwitch (by decide) sampleLoopCg_ok ⟨by decide, by decide⟩
    sampleLoop_distinct sampleLoopCg_run quietHost sampleLoop_later sampleLoop_inImage (by decide) (sampleLoop_inFrame 1) rfl
    (sampleLoop_holdsData 1) (Nat.zero_le _)
  have hok5 : Loc.Ok sampleLoopCg.toCg sampleLoopCg.nextReg (.reg 5) := Or.inl (by decide)
  have hphi : f'.regs 5 = 7 := by
    have hlast := locWord_agrees (l := .reg 5) hbefore.edges.next_le hag (hok5.mono hbefore.edges.next_ge)
    have hwords := hbefore.edges.words (.reg 5) hok5
    exact hlast.trans hwords
  have htarget : dispatchTarget (f₁.regs r) 2 sampleLoopCases = 2 := by
    rw [hbefore.cond]
    decide
  rw [htarget] at hgo
  refine ⟨f', hgo, by decide, rfl, hphi, fun htaken => ?_⟩
  have hnone : succMoves sampleLoopCg.toCg sampleLoopFn 0 2 = [] := rfl
  have hkept : f'.regs 5 = 9 := htaken.others.regs 5 (not_scratch_of_lt (by decide) (by decide)) fun ⟨m, hm, _⟩ => by
    rw [hnone] at hm
    exact List.not_mem_nil hm
  rw [hphi] at hkept
  exact absurd hkept (by decide)

end CronoVM
