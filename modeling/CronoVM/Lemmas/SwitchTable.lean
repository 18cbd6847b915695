import CronoVM.Lemmas.SwitchChain

/-!
# The jump table

The table form of a `switch`: its entries are in the data, each with the place of a block, and the dispatch loads one of them and jumps
there, or branches to the default block when the condition is out of range.
-/

namespace CronoVM

open Checked Ir

variable {κ W : Type}

/-! ## Entries -/

/-- The fixups of a table at `off`. -/
def tableEntries (off : Nat) : List Nat → List TableFixup
  | [] => []
  | target :: targets => { dataOff := off, target } :: tableEntries (off + 4) targets

theorem tableEntries_range {off : Nat} {targets : List Nat} {fx : TableFixup} (h : fx ∈ tableEntries off targets) :
    off ≤ fx.dataOff ∧ fx.dataOff + 4 ≤ off + 4 * targets.length := by
  induction targets generalizing off with
  | nil => exact absurd h List.not_mem_nil
  | cons target targets ih =>
    rw [List.length_cons]
    rcases List.mem_cons.mp h with rfl | h
    · dsimp only
      omega
    · have := ih h
      omega

theorem wp_queueTargets {Q : Unit → CgFn → Prop} {E : CgError → CgFn → Prop} {off : Nat} {targets : List Nat} {cg : CgFn} :
    Exec.wp (queueTargets off targets) Q E cg ↔ Q () { cg with tableFixups := cg.tableFixups ++ tableEntries off targets } := by
  induction targets generalizing off cg with
  | nil =>
    rw [queueTargets, Exec.wp_pure, tableEntries, List.append_nil]
  | cons target targets ih =>
    rw [queueTargets, Exec.wp_bind, cgQueueTableFixup, Exec.wp_modify, ih, tableEntries]
    simp only [List.append_assoc, List.cons_append, List.nil_append]

section resolve

variable {cg : CgFn} {data data' : List Byte} {fx : TableFixup}

/-- A table fixup writes the place of its block, and nothing else. -/
theorem resolveTableFixup_ok (h : resolveTableFixup cg data fx = .ok data') : fx.target ∈ cg.blocks ∧ data'.length = data.length ∧
    (∀ i, ¬(fx.dataOff ≤ i ∧ i < fx.dataOff + 4) → data'[i]? = data[i]?) ∧
    (fx.dataOff + 4 ≤ data.length → ∀ j < 4, data'[fx.dataOff + j]? = some (leByte (BitVec.ofNat 32 (cg.offsetOf fx.target)) j)) := by
  unfold resolveTableFixup at h
  cases hfind : cg.cgFindBlock fx.target with
  | none =>
    rw [hfind] at h
    nomatch h
  | some b =>
    have hoff : cg.offsetOf fx.target = cg.blockOffsets.getD b 0 := by rw [CgFn.offsetOf, hfind, Option.getD_some]
    have hmem : fx.target ∈ cg.blocks := by
      have hsome : (cg.blocks.idxOf? fx.target).isSome := by
        have hidx : cg.blocks.idxOf? fx.target = some b := hfind
        rw [hidx]
        rfl
      exact List.isSome_idxOf?.mp hsome
    rw [hfind] at h
    dsimp only at h
    rw [← hoff] at h
    obtain rfl := Except.ok.inj h
    refine ⟨hmem, by simp only [List.length_set], ?_, ?_⟩
    · intro i hi
      rw [List.getElem?_set_ne (by omega), List.getElem?_set_ne (by omega), List.getElem?_set_ne (by omega),
        List.getElem?_set_ne (by omega)]
    · intro hlen j hj
      have hcases : j = 0 ∨ j = 1 ∨ j = 2 ∨ j = 3 := by omega
      rcases hcases with rfl | rfl | rfl | rfl
      · rw [List.getElem?_set_ne (by omega), List.getElem?_set_ne (by omega), List.getElem?_set_ne (by omega),
          Nat.add_zero, List.getElem?_set_self (by omega)]
      · rw [List.getElem?_set_ne (by omega), List.getElem?_set_ne (by omega), List.getElem?_set_self (by simp only [List.length_set]; omega)]
      · rw [List.getElem?_set_ne (by omega), List.getElem?_set_self (by simp only [List.length_set]; omega)]
      · rw [List.getElem?_set_self (by simp only [List.length_set]; omega)]

theorem foldlM_cons_ok {l : List TableFixup} (h : (fx :: l).foldlM (resolveTableFixup cg) data = .ok data') :
    ∃ mid, resolveTableFixup cg data fx = .ok mid ∧ l.foldlM (resolveTableFixup cg) mid = .ok data' := by
  rw [List.foldlM_cons] at h
  cases hmid : resolveTableFixup cg data fx with
  | error e =>
    rw [hmid] at h
    nomatch h
  | ok mid =>
    rw [hmid] at h
    exact ⟨mid, rfl, h⟩

/-- What no entry covers stays. -/
theorem resolve_other {l : List TableFixup} (h : l.foldlM (resolveTableFixup cg) data = .ok data') :
    data'.length = data.length ∧ ∀ i, (∀ fx ∈ l, ¬(fx.dataOff ≤ i ∧ i < fx.dataOff + 4)) → data'[i]? = data[i]? := by
  induction l generalizing data with
  | nil =>
    obtain rfl := Except.ok.inj h
    exact ⟨rfl, fun _ _ => rfl⟩
  | cons fx l ih =>
    obtain ⟨mid, hmid, hrest⟩ := foldlM_cons_ok h
    obtain ⟨_, hlen, hother, _⟩ := resolveTableFixup_ok hmid
    obtain ⟨hlen', hother'⟩ := ih hrest
    refine ⟨hlen'.trans hlen, fun i hi => ?_⟩
    rw [hother' i fun fx' hfx' => hi fx' (List.mem_cons_of_mem fx hfx'), hother i (hi fx List.mem_cons_self)]

/-- The entries of a table have the places of its blocks. -/
theorem resolve_entries {off : Nat} {targets : List Nat} (h : (tableEntries off targets).foldlM (resolveTableFixup cg) data = .ok data')
    (hlen : off + 4 * targets.length ≤ data.length) : ∀ k target, targets[k]? = some target → target ∈ cg.blocks ∧
      ∀ j < 4, data'[off + 4 * k + j]? = some (leByte (BitVec.ofNat 32 (cg.offsetOf target)) j) := by
  induction targets generalizing off data with
  | nil => exact fun k target hk => by simp at hk
  | cons first targets ih =>
    obtain ⟨mid, hmid, hrest⟩ := foldlM_cons_ok h
    obtain ⟨hmem, hlen', _, hwrite⟩ := resolveTableFixup_ok hmid
    rw [List.length_cons] at hlen
    intro k target hk
    cases k with
    | zero =>
      obtain rfl : first = target := by simpa using hk
      refine ⟨hmem, fun j hj => ?_⟩
      obtain ⟨_, hother⟩ := resolve_other hrest
      rw [Nat.mul_zero, Nat.add_zero, hother]
      · exact hwrite (by dsimp only; omega) j hj
      · intro fx hfx
        have := tableEntries_range hfx
        omega
    | succ k =>
      have hrec := ih hrest (by omega) k target (by simpa using hk)
      refine ⟨hrec.1, fun j hj => ?_⟩
      have hidx : off + 4 * (k + 1) + j = off + 4 + 4 * k + j := by omega
      rw [hidx]
      exact hrec.2 j hj

end resolve

/-! ## The dispatch -/

section dispatch

variable {cg : Cg} {condReg : Byte} {lo : Int} {nRange tableOff : Nat}

/-- The words of the range test: the index in the second register, and whether it is in range in the fourth. -/
def tableHead (condReg : Byte) (lo : Int) (nRange n : Nat) : List Word :=
  loadConst32Words (BitVec.ofNat 8 n) (BitVec.ofInt 32 lo) ++ [encR .sub (BitVec.ofNat 8 (n + 1)) condReg (BitVec.ofNat 8 n)] ++
    loadConst32Words (BitVec.ofNat 8 (n + 2)) (BitVec.ofNat 32 nRange) ++
    [encR .cmpLtu (BitVec.ofNat 8 (n + 3)) (BitVec.ofNat 8 (n + 1)) (BitVec.ofNat 8 (n + 2))]

/-- The words that load the entry. -/
def tableLoad (tableOff n : Nat) : List Word :=
  [encI16 .movi (BitVec.ofNat 8 (n + 4)) 2, encR .shl (BitVec.ofNat 8 (n + 5)) (BitVec.ofNat 8 (n + 1)) (BitVec.ofNat 8 (n + 4))] ++
    loadConst32Words (BitVec.ofNat 8 (n + 6)) (BitVec.ofNat 32 tableOff) ++
    [encR .add (BitVec.ofNat 8 (n + 7)) (BitVec.ofNat 8 (n + 6)) (BitVec.ofNat 8 (n + 5)),
      encR .ldw (BitVec.ofNat 8 (n + 8)) (BitVec.ofNat 8 (n + 7)) 0]

/-- The words of the dispatch. -/
def tableWords (condReg : Byte) (lo : Int) (nRange tableOff : Nat) (zero : Byte) (n : Nat) : List Word :=
  tableHead condReg lo nRange n ++
    encBr .beq (BitVec.ofNat 8 (n + 3)) zero (BitVec.ofInt 8 ((tableLoad tableOff n).length + 1 : Nat)) ::
      (tableLoad tableOff n ++ [encR .jmpr (BitVec.ofNat 8 (n + 8)) 0 0])

theorem length_tableLoad (tableOff n : Nat) : 5 ≤ (tableLoad tableOff n).length ∧ (tableLoad tableOff n).length ≤ 6 := by
  have hload := length_loadConst32Words (BitVec.ofNat 8 (n + 6)) (BitVec.ofNat 32 tableOff)
  simp only [tableLoad, List.length_append, List.length_cons, List.length_nil]
  omega

variable {Q : Byte × Byte → Cg → Prop} {R : Unit → Cg → Prop}

theorem wp_cgTableRange (hpool : cg.freeList = []) (hQ : ¬cg.nextReg + 3 > cgMaxEmitReg →
      Q (BitVec.ofNat 8 (cg.nextReg + 1), BitVec.ofNat 8 (cg.nextReg + 3)) (cg.adv (tableHead condReg lo nRange cg.nextReg) 4)) :
    Exec.wp (cgTableRange condReg lo nRange) Q (fun e _ => e = .scratchExhausted ∧ cg.nextReg + 8 > cgMaxEmitReg) cg := by
  have hstart : cg = cg.adv [] 0 := (Cg.adv_zero cg).symm
  rw [cgTableRange, hstart]
  simp only [Exec.wp_bind, wp_cgConstReg_adv hpool, wp_cgAllocReg_adv hpool, wp_cgEmit, Exec.wp_pure, Cg.emit_adv]
  have hfull : ∀ {k : Nat}, k ≤ 3 → cg.nextReg + k > cgMaxEmitReg → cg.nextReg + 8 > cgMaxEmitReg := by
    intro k hk h
    omega
  exact ⟨fun h => ⟨trivial, hfull (by decide) h⟩, fun _ => ⟨fun h => ⟨trivial, hfull (by decide) h⟩, fun _ =>
    ⟨fun h => ⟨trivial, hfull (by decide) h⟩, fun _ => ⟨fun h => ⟨trivial, hfull (by decide) h⟩, fun h => hQ h⟩⟩⟩⟩

theorem wp_cgTableJump (hpool : cg.freeList = []) {ws : List Word} (hR : ¬cg.nextReg + 8 > cgMaxEmitReg →
      R () (cg.adv (ws ++ (tableLoad tableOff cg.nextReg ++ [encR .jmpr (BitVec.ofNat 8 (cg.nextReg + 8)) 0 0])) 9)) :
    Exec.wp (cgTableJump (BitVec.ofNat 8 (cg.nextReg + 1)) tableOff) R
      (fun e _ => e = .scratchExhausted ∧ cg.nextReg + 8 > cgMaxEmitReg) (cg.adv ws 4) := by
  rw [cgTableJump]
  simp only [Exec.wp_bind, wp_cgConstReg_adv hpool, wp_cgAllocReg_adv hpool, wp_cgEmit, Cg.emit_adv]
  have hfull : ∀ {k : Nat}, k ≤ 8 → cg.nextReg + k > cgMaxEmitReg → cg.nextReg + 8 > cgMaxEmitReg := by
    intro k hk h
    omega
  refine ⟨fun h => ⟨trivial, hfull (by decide) h⟩, fun _ => ⟨fun h => ⟨trivial, hfull (by decide) h⟩, fun _ =>
    ⟨fun h => ⟨trivial, hfull (by decide) h⟩, fun _ => ⟨fun h => ⟨trivial, hfull (by decide) h⟩, fun _ =>
      ⟨fun h => ⟨trivial, hfull (by decide) h⟩, fun h => ?_⟩⟩⟩⟩⟩
  have hR := hR h
  simpa only [tableLoad, List.append_assoc, List.cons_append, List.nil_append] using hR

theorem wp_cgTableDispatch (hpool : cg.freeList = []) : Exec.wp (cgTableDispatch condReg lo nRange tableOff)
    (fun _ cg' => ¬cg.nextReg + 8 > cgMaxEmitReg ∧ cg' = cg.adv (tableWords condReg lo nRange tableOff cg.zeroReg cg.nextReg) 9)
    (fun e _ => e = .scratchExhausted ∧ cg.nextReg + 8 > cgMaxEmitReg) cg := by
  have hlen := length_tableLoad tableOff cg.nextReg
  rw [cgTableDispatch, Exec.wp_bind]
  refine wp_cgTableRange hpool fun _ => ?_
  simp only [Exec.wp_bind, Exec.wp_get, wp_cgEmit, Cg.emit_adv]
  refine wp_cgTableJump hpool fun h8 => ?_
  have hskip : (((cg.adv (tableHead condReg lo nRange cg.nextReg ++ [0] ++ (tableLoad tableOff cg.nextReg ++
      [encR .jmpr (BitVec.ofNat 8 (cg.nextReg + 8)) 0 0])) 9).code.length : Nat) : Int) -
      (((cg.adv (tableHead condReg lo nRange cg.nextReg) 4).code.length : Int) + 1) = ((tableLoad tableOff cg.nextReg).length + 1 : Nat) := by
    simp only [Cg.adv_code, List.length_append, List.length_singleton]
    omega
  simp only [hskip, Exec.wp_stopIf, Exec.wp_modify]
  refine ⟨fun hout => by omega, fun _ => ⟨h8, ?_⟩⟩
  have hcode : (cg.code ++ (tableHead condReg lo nRange cg.nextReg ++ [0] ++ (tableLoad tableOff cg.nextReg ++
      [encR .jmpr (BitVec.ofNat 8 (cg.nextReg + 8)) 0 0]))).set (cg.code ++ tableHead condReg lo nRange cg.nextReg).length
        (encBr .beq (BitVec.ofNat 8 (cg.nextReg + 3)) cg.zeroReg (BitVec.ofInt 8 ((tableLoad tableOff cg.nextReg).length + 1 : Nat))) =
      cg.code ++ tableWords condReg lo nRange tableOff cg.zeroReg cg.nextReg := by
    rw [List.append_assoc, List.singleton_append, ← List.append_assoc, List.set_append_right _ _ (Nat.le_refl _), Nat.sub_self,
      List.set_cons_zero, tableWords, List.append_assoc]
  exact congrArg (fun code => { cg with code, nextReg := cg.nextReg + 9 }) hcode

end dispatch

/-! ## Its run -/

theorem ofNat_reg_ne {n i j : Nat} (hi : ¬n + i > cgMaxEmitReg) (hj : ¬n + j > cgMaxEmitReg) (hij : i ≠ j) :
    BitVec.ofNat 8 (n + i) ≠ BitVec.ofNat 8 (n + j) := by
  intro h
  have hnat := congrArg BitVec.toNat h
  rw [toNat_nextReg hi, toNat_nextReg hj] at hnat
  omega

section run

variable {img : Image κ} (host : Host κ W) (hcode : img.code.length = img.codeCount.toNat) {f : Frame κ W} {condReg : Byte} {lo : Int}
  {nRange tableOff n : Nat}
include hcode

/-- The range test leaves the index and whether it is in range. -/
theorem runs_tableHead {a m : Nat} (hheld : Held condReg n) (hn : ¬n + 8 > cgMaxEmitReg) :
    ∃ g, RunsReading img host a m (tableHead condReg lo nRange n) f g ∧ f.AgreesOff (Scratch n) g ∧
      g.regs (BitVec.ofNat 8 (n + 1)) = f.regs condReg - BitVec.ofInt 32 lo ∧
      g.regs (BitVec.ofNat 8 (n + 3)) = if f.regs condReg - BitVec.ofInt 32 lo < BitVec.ofNat 32 nRange then 1 else 0 := by
  have hne : ∀ {i j : Nat}, i ≤ 8 → j ≤ 8 → i ≠ j → BitVec.ofNat 8 (n + i) ≠ BitVec.ofNat 8 (n + j) :=
    fun hi hj hij => ofNat_reg_ne (by omega) (by omega) hij
  have hscratch : ∀ {i : Nat}, i ≤ 8 → Scratch n (BitVec.ofNat 8 (n + i)) := fun hi => scratch_nextReg (Nat.le_add_right _ _) (by omega)
  have hcond : condReg ≠ BitVec.ofNat 8 n := hheld.ne_scratch (k := 0) (by omega)
  have h1 : RunsReading img host a m _ f _ := runsReading_loadConst32 host hcode (BitVec.ofNat 8 n) (BitVec.ofInt 32 lo)
  generalize hf1 : f.setReg (BitVec.ofNat 8 n) (BitVec.ofInt 32 lo) = f1 at h1
  have h2 : RunsReading img host a m [encR .sub (BitVec.ofNat 8 (n + 1)) condReg (BitVec.ofNat 8 n)] f1 _ := runsReading_alu host hcode rfl _ _ _
  generalize hf2 : f1.setReg (BitVec.ofNat 8 (n + 1)) (f1.regs condReg - f1.regs (BitVec.ofNat 8 n)) = f2 at h2
  have h3 : RunsReading img host a m _ f2 _ := runsReading_loadConst32 host hcode (BitVec.ofNat 8 (n + 2)) (BitVec.ofNat 32 nRange)
  generalize hf3 : f2.setReg (BitVec.ofNat 8 (n + 2)) (BitVec.ofNat 32 nRange) = f3 at h3
  have h4 : RunsReading img host a m [encR .cmpLtu (BitVec.ofNat 8 (n + 3)) (BitVec.ofNat 8 (n + 1)) (BitVec.ofNat 8 (n + 2))] f3 _ :=
    runsReading_alu host hcode rfl _ _ _
  -- The index and the bound are what the compare finds.
  have hoff2 : f2.regs (BitVec.ofNat 8 (n + 1)) = f.regs condReg - BitVec.ofInt 32 lo := by
    rw [← hf2, Frame.setReg_same, ← hf1, Frame.setReg_of_ne _ _ hcond, Frame.setReg_same]
  have hoff3 : f3.regs (BitVec.ofNat 8 (n + 1)) = f.regs condReg - BitVec.ofInt 32 lo := by
    rw [← hf3, Frame.setReg_of_ne _ _ (hne (by decide) (by decide) (by decide)), hoff2]
  have hn3 : f3.regs (BitVec.ofNat 8 (n + 2)) = BitVec.ofNat 32 nRange := by rw [← hf3, Frame.setReg_same]
  refine ⟨_, ((h1.append hcode h2).append hcode h3).append hcode h4, ?_, ?_, ?_⟩
  · refine Frame.AgreesOff.trans ?_ (.setReg _ (hscratch (by decide)))
    rw [← hf3, ← hf2, ← hf1]
    exact ((Frame.AgreesOff.setReg _ (hscratch (i := 0) (by decide))).trans (.setReg _ (hscratch (by decide)))).trans
      (.setReg _ (hscratch (by decide)))
  · rw [Frame.setReg_of_ne _ _ (hne (by decide) (by decide) (by decide)), hoff3]
  · rw [Frame.setReg_same, hoff3, hn3]

/-- The entry at the index is loaded. -/
theorem runs_tableLoad (hn : ¬n + 8 > cgMaxEmitReg) {k : Nat} (hoff : f.regs (BitVec.ofNat 8 (n + 1)) = BitVec.ofNat 32 k) (hk : k < nRange)
    (hsize : f.heap.size = img.memSize.toNat) (hmem : tableOff + 4 * nRange ≤ img.memSize.toNat) :
    ∃ g, RunsReading img host tableOff (4 * nRange) (tableLoad tableOff n) f g ∧ f.AgreesOff (Scratch n) g ∧
      g.regs (BitVec.ofNat 8 (n + 8)) = f.heap.word (tableOff + 4 * k) := by
  have hne : ∀ {i j : Nat}, i ≤ 8 → j ≤ 8 → i ≠ j → BitVec.ofNat 8 (n + i) ≠ BitVec.ofNat 8 (n + j) :=
    fun hi hj hij => ofNat_reg_ne (by omega) (by omega) hij
  have hscratch : ∀ {i : Nat}, i ≤ 8 → Scratch n (BitVec.ofNat 8 (n + i)) := fun hi => scratch_nextReg (Nat.le_add_right _ _) (by omega)
  have hlt := img.memSize.isLt
  have h1 : RunsReading img host tableOff (4 * nRange) _ f _ := runsReading_movi host hcode (BitVec.ofNat 8 (n + 4)) 2
  generalize hf1 : f.setReg (BitVec.ofNat 8 (n + 4)) ((2 : BitVec 16).signExtend 32) = f1 at h1
  have h2 : RunsReading img host tableOff (4 * nRange)
      [encR .shl (BitVec.ofNat 8 (n + 5)) (BitVec.ofNat 8 (n + 1)) (BitVec.ofNat 8 (n + 4))] f1 _ := runsReading_alu host hcode rfl _ _ _
  have hidx : f1.regs (BitVec.ofNat 8 (n + 1)) <<< (f1.regs (BitVec.ofNat 8 (n + 4)) &&& 31) = BitVec.ofNat 32 (4 * k) := by
    rw [← hf1, Frame.setReg_same, Frame.setReg_of_ne _ _ (hne (by decide) (by decide) (by decide)), hoff]
    have htwo : (2 : BitVec 16).signExtend 32 &&& 31 = (2 : Word) := by decide
    rw [htwo]
    apply BitVec.eq_of_toNat_eq
    have h2nat : (2 : Word).toNat = 2 := rfl
    rw [BitVec.shiftLeft_eq', BitVec.toNat_shiftLeft, h2nat, BitVec.toNat_ofNat, BitVec.toNat_ofNat, Nat.shiftLeft_eq]
    omega
  rw [hidx] at h2
  generalize hf2 : f1.setReg (BitVec.ofNat 8 (n + 5)) (BitVec.ofNat 32 (4 * k)) = f2 at h2
  have h3 : RunsReading img host tableOff (4 * nRange) _ f2 _ :=
    runsReading_loadConst32 host hcode (BitVec.ofNat 8 (n + 6)) (BitVec.ofNat 32 tableOff)
  generalize hf3 : f2.setReg (BitVec.ofNat 8 (n + 6)) (BitVec.ofNat 32 tableOff) = f3 at h3
  have h4 : RunsReading img host tableOff (4 * nRange)
      [encR .add (BitVec.ofNat 8 (n + 7)) (BitVec.ofNat 8 (n + 6)) (BitVec.ofNat 8 (n + 5))] f3 _ := runsReading_alu host hcode rfl _ _ _
  have haddr : f3.regs (BitVec.ofNat 8 (n + 6)) + f3.regs (BitVec.ofNat 8 (n + 5)) = BitVec.ofNat 32 (tableOff + 4 * k) := by
    rw [← hf3, Frame.setReg_same, Frame.setReg_of_ne _ _ (hne (by decide) (by decide) (by decide)), ← hf2, Frame.setReg_same,
      ← BitVec.ofNat_add]
  rw [haddr] at h4
  generalize hf4 : f3.setReg (BitVec.ofNat 8 (n + 7)) (BitVec.ofNat 32 (tableOff + 4 * k)) = f4 at h4
  have hreg4 : f4.regs (BitVec.ofNat 8 (n + 7)) = BitVec.ofNat 32 (tableOff + 4 * k) := by rw [← hf4, Frame.setReg_same]
  have hnat : (f4.regs (BitVec.ofNat 8 (n + 7))).toNat = tableOff + 4 * k := by
    rw [hreg4, BitVec.toNat_ofNat, Nat.mod_eq_of_lt (by omega)]
  have hheap : f4.heap = f.heap := by
    rw [← hf4, ← hf3, ← hf2, ← hf1]
    rfl
  have h5 : RunsReading img host tableOff (4 * nRange) _ f4 _ :=
    runsReading_ldw host hcode (BitVec.ofNat 8 (n + 8)) (BitVec.ofNat 8 (n + 7)) ⟨by rw [hheap, hsize], by rw [hnat, hheap, hsize]; omega⟩
      (by omega) (by omega)
  rw [hnat, hheap] at h5
  refine ⟨f4.setReg (BitVec.ofNat 8 (n + 8)) (f.heap.word (tableOff + 4 * k)), ?_, ?_, Frame.setReg_same ..⟩
  · have hall := (((h1.append hcode h2).append hcode h3).append hcode h4).append hcode h5
    simpa only [tableLoad, List.append_assoc, List.cons_append, List.nil_append] using hall
  · refine Frame.AgreesOff.trans ?_ (.setReg _ (hscratch (by decide)))
    rw [← hf4, ← hf3, ← hf2, ← hf1]
    exact (((Frame.AgreesOff.setReg _ (hscratch (by decide))).trans (.setReg _ (hscratch (by decide)))).trans
      (.setReg _ (hscratch (by decide)))).trans (.setReg _ (hscratch (by decide)))

end run

/-! ## The table form -/

theorem length_tableTargets (condW dflt : Nat) (lo : Int) (nRange : Nat) (cases : List (Val × Nat)) :
    (tableTargets condW dflt lo nRange cases).length = nRange := by
  have hfold : ∀ (cases : List (Val × Nat)) (targets : List Nat),
      (cases.foldl (fun targets c => targets.set (((caseInt condW c.1).getD 0) - lo).toNat c.2) targets).length = targets.length := by
    intro cases
    induction cases with
    | nil => exact fun _ => rfl
    | cons c cases ih =>
      intro targets
      rw [List.foldl_cons, ih, List.length_set]
  rw [tableTargets, hfold, List.length_replicate]

/-- The bytes of the table in the memory of the machine are those of the finished function. -/
structure HoldsData (cg₂ : CgFn) (img : Image κ) (f : Frame κ W) (a n : Nat) : Prop where
  size : f.heap.size = img.memSize.toNat
  fits : a + n ≤ img.memSize.toNat
  bytes : ∀ k < n, f.heap.byte (a + k) = cg₂.dataBytes.getD (a + k) 0

/-- The function with the table in its data. -/
def withTable (cg : CgFn) (nRange : Nat) (targets : List Nat) : CgFn :=
  { cg with
    dataBytes := cg.dataBytes ++ List.replicate (nRange * 4) 0,
    tableFixups := cg.tableFixups ++ tableEntries cg.dataBytes.length targets }

theorem onlyAdds_withTable (cg : CgFn) {nRange : Nat} {targets : List Nat} (hlen : targets.length = nRange) :
    OnlyAdds cg (withTable cg nRange targets) := by
  refine ⟨⟨List.prefix_refl _, ⟨[], (List.append_nil _).symm, fun _ h => absurd h List.not_mem_nil⟩, List.prefix_append _ _,
    ⟨_, rfl, fun fx hfx => ?_⟩⟩, rfl, rfl⟩
  have hrange := tableEntries_range hfx
  simp only [withTable, List.length_append, List.length_replicate]
  omega

section table

variable {cg cg₂ final : CgFn} {img : Image κ} {f : Frame κ W} {nRange : Nat} {targets : List Nat}

/-- An entry of the table holds the place of its block. -/
theorem word_entry (hlen : targets.length = nRange) (hlater : Later (withTable cg nRange targets) final)
    (himg : InImage final cg₂ img) (hdata : HoldsData cg₂ img f cg.dataBytes.length (4 * nRange)) {k target : Nat}
    (hk : targets[k]? = some target) : target ∈ final.blocks ∧
      f.heap.word (cg.dataBytes.length + 4 * k) = BitVec.ofNat 32 (finalPlace final (final.offsetOf target)) := by
  obtain ⟨_, hplace, hblocks, hfold⟩ := cgFinish_ok himg.wf himg.finished
  obtain ⟨later, hts, hoff⟩ := hlater.tables
  obtain ⟨rest, hrest⟩ := hlater.data
  have hklt : k < nRange := by
    rw [← hlen]
    exact (List.getElem?_eq_some_iff.mp hk).1
  have hdlen : (withTable cg nRange targets).dataBytes.length = cg.dataBytes.length + 4 * nRange := by
    simp only [withTable, List.length_append, List.length_replicate]
    omega
  -- The entries before, those of this table, and those behind.
  have hsplit : final.tableFixups = cg.tableFixups ++ (tableEntries cg.dataBytes.length targets ++ later) := by
    rw [hts, withTable, List.append_assoc]
  rw [hsplit, List.foldlM_append] at hfold
  cases hbefore : cg.tableFixups.foldlM (resolveTableFixup cg₂) final.dataBytes with
  | error e =>
    rw [hbefore] at hfold
    nomatch hfold
  | ok data₁ =>
    rw [hbefore] at hfold
    have hfold : (tableEntries cg.dataBytes.length targets ++ later).foldlM (resolveTableFixup cg₂) data₁ = .ok cg₂.dataBytes := hfold
    rw [List.foldlM_append] at hfold
    cases hown : (tableEntries cg.dataBytes.length targets).foldlM (resolveTableFixup cg₂) data₁ with
    | error e =>
      rw [hown] at hfold
      nomatch hfold
    | ok data₂ =>
      rw [hown] at hfold
      have hfold : later.foldlM (resolveTableFixup cg₂) data₂ = .ok cg₂.dataBytes := hfold
      have hlen₁ : data₁.length = final.dataBytes.length := (resolve_other hbefore).1
      have hflen : cg.dataBytes.length + 4 * nRange ≤ final.dataBytes.length := by
        rw [← hrest, List.length_append, hdlen]
        exact Nat.le_add_right _ _
      obtain ⟨hmem, hbytes⟩ := resolve_entries hown (by rw [hlen, hlen₁]; exact hflen) k target hk
      rw [hblocks] at hmem
      refine ⟨hmem, ?_⟩
      rw [← hplace target hmem, Mem.word, ← leWord_leByte (BitVec.ofNat 32 (cg₂.offsetOf target))]
      refine leWord_congr fun j hj => ?_
      have hbyte : cg₂.dataBytes[cg.dataBytes.length + 4 * k + j]? = some (leByte (BitVec.ofNat 32 (cg₂.offsetOf target)) j) := by
        rw [(resolve_other hfold).2, hbytes j hj]
        intro fx hfx
        have := (hoff fx hfx).1
        omega
      rw [Nat.add_assoc, hdata.bytes (4 * k + j) (by omega), ← Nat.add_assoc, List.getD_eq_getElem?_getD, hbyte, Option.getD_some]

/-- The block at `x` of the table, the default block out of its range. -/
def tableTarget (dflt : Nat) (lo : Int) (targets : List Nat) (x : Word) : Nat := targets.getD (x - BitVec.ofInt 32 lo).toNat dflt

/-- The function behind the table form. -/
def afterTable (condReg : Byte) (dflt : Nat) (lo : Int) (nRange : Nat) (targets : List Nat) (cg : CgFn) : CgFn :=
  ((withTable cg nRange targets).advanced (tableWords condReg lo nRange cg.dataBytes.length cg.zeroReg cg.nextReg) 9).queued dflt 8 24
    (encI24 .jmp 0)

variable {condReg : Byte} {dflt : Nat} {lo : Int}

theorem onlyAdds_afterTable (hlen : targets.length = nRange) : OnlyAdds cg (afterTable condReg dflt lo nRange targets cg) :=
  ((onlyAdds_withTable cg hlen).trans (onlyAdds_advanced _ _ _)).trans (onlyAdds_queued _ _ _ _ _)

theorem wp_cgSwitchTable {condW : Nat} {cases : List (Val × Nat)} (hpool : cg.freeList = []) :
    Exec.wp (cgSwitchTable condW condReg dflt lo nRange cases) (fun _ cg' => ¬cg.nextReg + 8 > cgMaxEmitReg ∧
      cg' = afterTable condReg dflt lo nRange (tableTargets condW dflt lo nRange cases) cg)
      (fun e _ => e = .scratchExhausted ∧ cg.nextReg + 8 > cgMaxEmitReg) cg := by
  simp only [cgSwitchTable, Exec.wp_bind, Exec.wp_get, Exec.wp_modify, wp_queueTargets, wp_lift]
  refine Exec.wp_mono ?_ (fun _ _ he => he) (wp_cgTableDispatch hpool)
  rintro _ c ⟨hnext, rfl⟩
  simp only [cgJump, cgQueueFixup, Exec.wp_bind, Exec.wp_modify, wp_lift, wp_cgEmit]
  exact ⟨hnext, rfl⟩

/-- The dispatch goes to the place of its entry, or behind itself if the condition is out of range. -/
theorem goesVia_tableWords (host : Host κ W) {p n off : Nat} (hheld : Held condReg n) (hnext : ¬n + 8 > cgMaxEmitReg)
    (hlen : targets.length = nRange) (himg : InImage final cg₂ img) (hat : HasAt final.code p (tableWords condReg lo nRange off cgRegZero n))
    (hnone : ∀ fx ∈ final.fixups, p ≤ fx.instIndex → fx.instIndex < p + (tableWords condReg lo nRange off cgRegZero n).length → False)
    (hdata : HoldsData cg₂ img f off (4 * nRange)) (hf : f.regs cgRegZero = 0)
    (hentry : ∀ k target, targets[k]? = some target → final.offsetOf target < final.code.length ∧
      f.heap.word (off + 4 * k) = BitVec.ofNat 32 (finalPlace final (final.offsetOf target))) : ∃ f', f.AgreesOff (Scratch n) f' ∧
      GoesVia final img host off (4 * nRange) p f (match targets[(f.regs condReg - BitVec.ofInt 32 lo).toNat]? with
        | some target => final.offsetOf target
        | none => p + (tableWords condReg lo nRange off cgRegZero n).length) f' := by
  have hload := length_tableLoad off n
  have hwords : (tableWords condReg lo nRange off cgRegZero n).length =
      (tableHead condReg lo nRange n).length + 1 + ((tableLoad off n).length + 1) := by
    simp only [tableWords, List.length_append, List.length_cons, List.length_nil]
    omega
  rw [hwords] at hnone ⊢
  have hrange := hdata.fits
  have hsize := img.memSize.isLt
  -- The range test.
  obtain ⟨g, hhead, hag, hidx, hin⟩ : ∃ g, RunsReading img host off (4 * nRange) (tableHead condReg lo nRange n) f g ∧ _ ∧ _ ∧ _ :=
    runs_tableHead host himg.code hheld hnext
  have hgo₁ : GoesVia final img host off (4 * nRange) p f (p + (tableHead condReg lo nRange n).length) g :=
    GoesVia.straight himg hat.left (fun fx hfx hlo hhi => hnone fx hfx hlo (by omega)) hhead
  -- The branch over the load.
  have hbeq := hat.right.head
  have hgo₂ : GoesVia final img host off (4 * nRange) (p + (tableHead condReg lo nRange n).length) g _ g :=
    GoesVia.skip himg (Or.inr rfl) (by omega) hbeq (by have := hat.length_le; omega)
      fun fx hfx hlo hhi => hnone fx hfx (by omega) (by omega)
  have hgzero : g.regs cgRegZero = 0 := (hag.regs _ (not_scratch_of_gt (Or.inl rfl))).trans hf
  rw [hgzero, hin] at hgo₂
  have hlt : f.regs condReg - BitVec.ofInt 32 lo < BitVec.ofNat 32 nRange ↔ (f.regs condReg - BitVec.ofInt 32 lo).toNat < nRange := by
    rw [BitVec.lt_def, BitVec.toNat_ofNat, Nat.mod_eq_of_lt (by omega)]
  by_cases hk : (f.regs condReg - BitVec.ofInt 32 lo).toNat < nRange
  case neg =>
    rw [if_neg (mt hlt.mp hk), if_pos (by decide)] at hgo₂
    refine ⟨g, hag, ?_⟩
    rw [List.getElem?_eq_none (by omega)]
    rw [Nat.add_assoc, Nat.add_assoc, ← Nat.add_assoc (tableHead condReg lo nRange n).length] at hgo₂
    exact hgo₁.trans hgo₂
  case pos =>
    rw [if_pos (hlt.mpr hk), if_neg (by decide)] at hgo₂
    have hheap : g.heap = f.heap := hag.heap
    obtain ⟨g', hrun, hag', htarget⟩ : ∃ g', RunsReading img host off (4 * nRange) (tableLoad off n) g g' ∧ _ ∧ _ :=
      runs_tableLoad host himg.code hnext (hidx.trans (by rw [BitVec.ofNat_toNat, BitVec.setWidth_eq])) hk (hheap ▸ hdata.size) hdata.fits
    have hlist := hat.right.tail
    have hgo₃ : GoesVia final img host off (4 * nRange) (p + (tableHead condReg lo nRange n).length + 1) g _ g' :=
      GoesVia.straight himg hlist.left (fun fx hfx hlo hhi => hnone fx hfx (by omega) (by omega)) hrun
    -- The jump to the place the entry has.
    obtain ⟨hplace, hword⟩ := hentry _ _ (List.getElem?_eq_getElem (hlen ▸ hk))
    have hgo₄ : GoesVia final img host off (4 * nRange) _ g' _ g' :=
      GoesVia.indirect himg hlist.right.head (fun fx hfx hpos => hnone fx hfx (by omega) (by omega)) hplace
        (htarget.trans (by rw [hheap, hword]))
    refine ⟨g', hag.trans hag', ?_⟩
    rw [List.getElem?_eq_getElem (hlen ▸ hk)]
    exact ((hgo₁.trans hgo₂).trans hgo₃).trans hgo₄

/-- The table form goes to the block its table has for the condition, and reads only the table. -/
theorem goesVia_afterTable (host : Host κ W) (hheld : Held condReg cg.nextReg) (hnext : ¬cg.nextReg + 8 > cgMaxEmitReg)
    (hzero : cg.zeroReg = cgRegZero) (hcg : cg.UnderWay) (hlen : targets.length = nRange)
    (hlater : Later (afterTable condReg dflt lo nRange targets cg) final) (himg : InImage final cg₂ img)
    (hcode : ∀ bb ∈ final.blocks, final.offsetOf bb < final.code.length) (hdata : HoldsData cg₂ img f cg.dataBytes.length (4 * nRange))
    (hf : f.regs cgRegZero = 0) : ∃ f', f.AgreesOff (Scratch cg.nextReg) f' ∧
      GoesVia final img host cg.dataBytes.length (4 * nRange) cg.code.length f
        (final.offsetOf (tableTarget dflt lo targets (f.regs condReg))) f' := by
  have hlater₂ : Later ((withTable cg nRange targets).advanced
      (tableWords condReg lo nRange cg.dataBytes.length cg.zeroReg cg.nextReg) 9) final := (onlyAdds_queued _ dflt 8 24 _).later.trans hlater
  have hlater₁ : Later (withTable cg nRange targets) final := (onlyAdds_advanced _ _ _).later.trans hlater₂
  have hlength : ((withTable cg nRange targets).advanced (tableWords condReg lo nRange cg.dataBytes.length cg.zeroReg cg.nextReg) 9).code.length
      = cg.code.length + (tableWords condReg lo nRange cg.dataBytes.length cg.zeroReg cg.nextReg).length := List.length_append
  have hat : HasAt final.code cg.code.length (tableWords condReg lo nRange cg.dataBytes.length cg.zeroReg cg.nextReg) := hlater₂.hasAt rfl
  have hnone : ∀ fx ∈ final.fixups, cg.code.length ≤ fx.instIndex →
      fx.instIndex < cg.code.length + (tableWords condReg lo nRange cg.dataBytes.length cg.zeroReg cg.nextReg).length → False := by
    intro fx hfx hlo hhi
    exact List.not_mem_nil (hlater₂.fixup_between hcg (List.append_nil _).symm hfx hlo (by rwa [hlength]))
  rw [hzero] at hlength hat hnone
  obtain ⟨f₁, hag₁, hgo₁⟩ := goesVia_tableWords host hheld hnext hlen himg hat hnone hdata hf fun k target hk => by
    obtain ⟨hmem, hword⟩ := word_entry hlen hlater₁ himg hdata hk
    exact ⟨hcode target hmem, hword⟩
  rw [tableTarget, List.getD_eq_getElem?_getD]
  cases htarget : targets[(f.regs condReg - BitVec.ofInt 32 lo).toNat]? with
  | some target =>
    rw [htarget] at hgo₁
    exact ⟨f₁, hag₁, hgo₁⟩
  | none =>
    rw [htarget] at hgo₁
    obtain ⟨f₂, hag₂, hgo₂⟩ := leads_queued ((withTable cg nRange targets).advanced
      (tableWords condReg lo nRange cg.dataBytes.length cg.zeroReg cg.nextReg) 9) dflt 8 24 (encI24 .jmp 0) cg.nextReg host
      cg.dataBytes.length (4 * nRange) f₁ hlater himg trivial
    dsimp only at hgo₂
    rw [if_pos branchTaken_jmp, hzero, hlength] at hgo₂
    exact ⟨f₂, hag₁.trans hag₂, GoesVia.trans hgo₁ hgo₂⟩

end table

end CronoVM
