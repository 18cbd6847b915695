import CronoVM.Translator.PreAlloc

/-!
# What a turn of the pass does

A turn gives at most one value a home: a register, the slots of the aggregate it is an alias of, or the slots from the count on. The registers
do not matter for the slots.
-/

namespace CronoVM

open Checked Ir

/-! ## Words of a value -/

/-- The first slot of a home. -/
def Home.start (h : Home) : Option Nat := ((h.valSlot.or h.i64Slot).or h.aggSlot).or h.vecSlot

/-- The slots at which the code keeps the words of a home. Those of an aggregate are counted in 16 bits, the others follow the first. -/
def Home.wordSlots (h : Home) (words : Nat) : List Nat :=
  match h.aggSlot, h.start with
  | some base, _ => (List.range words).map (aggWordSlot base)
  | none, some s => (List.range words).map (s + ·)
  | none, none => []

namespace Ir.Func

variable (fn : Func)

/-- The slots that the result of an instruction takes when it takes any. -/
def resultWords (i : Inst) : Nat :=
  match overflowCall? i with
  | some (_, bits) => cgOverflowValWords bits + 1
  | none =>
    if fn.isCmpxchg i = true then fn.cmpxchgValWords i + 1
    else if i.ty.isI65 = true then 3
    else if i.ty.isWide = true then 2
    else if i.ty.isVector = true then i.ty.vecLanes
    else 1

/-- The result of an instruction is kept as an aggregate: its words, and a flag after them. -/
def isAggregate (i : Inst) : Bool := (overflowCall? i).isSome || fn.isCmpxchg i

/-- The slots that a value takes when it takes any. -/
def slotWords : Local → Nat
  | .arg _ => 2
  | .inst id => match fn.inst? (.loc (.inst id)) with
    | none => 0
    | some i => fn.resultWords i

/-- The value is an alias. -/
def aliases : Local → Bool
  | .arg _ => false
  | .inst id => (fn.inst? (.loc (.inst id))).any fn.isAlias

/-- A function as the IR has it: an instruction is named by its number, and a vector has a lane. -/
structure WellFormed : Prop where
  ids : (fn.insts.map Inst.id).Nodup
  lanes : ∀ i ∈ fn.insts, i.ty.isVector = true → 0 < i.ty.vecLanes

variable {fn} {i : Inst}

/-- Only an `extractvalue` is an alias. -/
theorem isAlias_op (h : fn.isAlias i = true) : i.op = .extractValue := by
  unfold isAlias isCmpxchgAlias isOverflowAlias extractsFirst at h
  rcases Bool.or_eq_true_iff.mp h with h | h
  · simp only [Bool.and_eq_true, decide_eq_true_eq] at h
    exact h.1.1.1
  · simp only [Bool.and_eq_true, decide_eq_true_eq] at h
    exact h.1.1.1

/-- Only calls are overflow intrinsics. -/
theorem overflowCall?_eq_none (h : i.op ≠ .call) : overflowCall? i = none := by
  unfold overflowCall?
  rw [if_pos h]

/-- Only a `cmpxchg` is one. -/
theorem isCmpxchg_op (h : fn.isCmpxchg i = true) : i.op = .atomicCmpXchg := by
  unfold isCmpxchg at h
  split at h
  · exact of_decide_eq_true h
  · exact (of_decide_eq_true h).1
  · nomatch h

/-- An overflow intrinsic has a home of its own. -/
theorem isAlias_eq_false_of_overflow {c : OverflowKind × Nat} (h : overflowCall? i = some c) : fn.isAlias i = false := by
  refine eq_false_of_ne_true fun halias => ?_
  have hop := isAlias_op halias
  rw [overflowCall?_eq_none (by rw [hop]; decide)] at h
  nomatch h

/-- So has a `cmpxchg`. -/
theorem isAlias_eq_false_of_cmpxchg (h : fn.isCmpxchg i = true) : fn.isAlias i = false := by
  refine eq_false_of_ne_true fun halias => ?_
  have hop := isAlias_op halias
  rw [isCmpxchg_op h] at hop
  nomatch hop

/-- An instruction of a function is found by its number. -/
theorem WellFormed.inst?_eq (hfn : fn.WellFormed) (hi : i ∈ fn.insts) : fn.inst? (.loc i.result) = some i := by
  have hfind : ∀ {insts : List Inst}, (insts.map Inst.id).Nodup → i ∈ insts → insts.find? (fun j => j.id == i.id) = some i := by
    intro insts hids hmem
    induction insts with
    | nil => nomatch hmem
    | cons j insts ih =>
      rw [List.map_cons, List.nodup_cons] at hids
      rcases List.mem_cons.mp hmem with rfl | hmem
      · exact List.find?_cons_of_pos (beq_self_eq_true _)
      · have hne : j.id ≠ i.id := fun h => hids.1 (h ▸ List.mem_map_of_mem hmem)
        rw [List.find?_cons_of_neg (by rwa [beq_iff_eq])]
        exact ih hids.2 hmem
  exact hfind hfn.ids hi

/-- Every result has a word. -/
theorem WellFormed.resultWords_pos (hfn : fn.WellFormed) (hi : i ∈ fn.insts) : 0 < fn.resultWords i := by
  unfold resultWords
  split
  · exact Nat.succ_pos _
  · split
    · exact Nat.succ_pos _
    · split
      · decide
      · split
        · decide
        · split
          · rename_i hvector
            exact hfn.lanes i hi hvector
          · decide

/-- An aggregate has three words and a flag at most. -/
theorem resultWords_le_four (h : fn.isAggregate i = true) : fn.resultWords i ≤ 4 := by
  unfold resultWords
  split
  · unfold cgOverflowValWords
    split_ifs <;> decide
  · rename_i hcall
    have hcmpxchg : fn.isCmpxchg i = true := by
      unfold isAggregate at h
      rw [hcall] at h
      exact h
    rw [if_pos hcmpxchg]
    unfold cmpxchgValWords
    split_ifs <;> decide

/-- The words of a result are found by its name. -/
theorem WellFormed.slotWords_eq (hfn : fn.WellFormed) (hi : i ∈ fn.insts) : fn.slotWords i.result = fn.resultWords i := by
  have hinst : fn.inst? (.loc (.inst i.id)) = some i := hfn.inst?_eq hi
  rw [Inst.result, slotWords, hinst]

/-- So is whether it is an alias. -/
theorem WellFormed.aliases_eq (hfn : fn.WellFormed) (hi : i ∈ fn.insts) : fn.aliases i.result = fn.isAlias i := by
  have hinst : fn.inst? (.loc (.inst i.id)) = some i := hfn.inst?_eq hi
  rw [Inst.result, aliases, hinst, Option.any_some]

end Ir.Func

/-! ## A turn -/

/-- The registers of the pool and the next one are none that means a slot. -/
structure Cg.RegsOk (cg : Cg) : Prop where
  low : 8 ≤ cg.nextReg
  high : cg.nextReg ≤ 253
  pool : ∀ r ∈ cg.freeList, r ≠ cgRegSpilled

/-- A step that takes slots: a wide parameter, an aggregate, a 65-bit, 64-bit or vector result, and a scalar for which there is no
register left. -/
def TakesSlots (fn : Func) (cg : Cg) : AllocStep → Prop
  | .param _ ty => ty.isWide = true
  | .block => False
  | .inst _ i _ => fn.isAlias i = false ∧
    ((overflowCall? i).isSome = true ∨ fn.isCmpxchg i = true ∨ i.ty.isI65 = true ∨ i.ty.isWide = true ∨ i.ty.isVector = true ∨
      i.ty.kind ≠ .void ∧ fn.isEhValue (.loc i.result) = false ∧ cg.freeList = [] ∧ cgMaxSsaReg < cg.nextReg)

/-- How many. -/
def AllocStep.words (fn : Func) : AllocStep → Nat
  | .param _ ty => if ty.isWide = true then 2 else 0
  | .block => 0
  | .inst _ i _ => fn.resultWords i

/-- What the step gives slots to is an aggregate. -/
def AllocStep.isAggregate (fn : Func) : AllocStep → Bool
  | .inst _ i _ => fn.isAggregate i
  | _ => false

/-- The step gives a value slots from the count on. -/
structure SlotEffect (fn : Func) (cg cg' : Cg) (l : Local) (h : Home) (words : Nat) (agg : Bool) : Prop where
  map : cg'.map = cg.map ++ [(l, h)]
  count : cg'.valSpillCount = cg.valSpillCount + words
  words_eq : fn.slotWords l = words
  words_pos : 0 < words
  notAlias : fn.aliases l = false
  spilled : h.reg = cgRegSpilled
  start : h.start = slotOf cg.valSpillCount
  aggSlot : h.aggSlot = if agg = true then slotOf cg.valSpillCount else none
  small : agg = true → words ≤ 4

/-- An alias has the words of the aggregate that it was found at, if there was one. -/
def AliasHome (fn : Func) (cg : Cg) (l : Local) (h : Home) : Prop :=
  fn.aliases l = true ∧ ∃ i, fn.inst? (.loc l) = some i ∧ h = { reg := cgRegSpilled, i64Slot := (cg.lookup (i.operand 0)).bind Home.aggSlot }

/-- The step gives no slots: at most a register or those of an aggregate. -/
structure OtherEffect (fn : Func) (cg cg' : Cg) : Prop where
  count : cg'.valSpillCount = cg.valSpillCount
  map : cg'.map = cg.map ∨ ∃ l h, cg'.map = cg.map ++ [(l, h)] ∧ (AliasHome fn cg l h ∨ fn.aliases l = false ∧ h.reg ≠ cgRegSpilled ∧ h.start = none)

namespace PreAllocAux

variable {fn : Func} {cg cg' : Cg} {i : Inst}

/-- A register that can be allocated is not the mark of a spilled value. -/
theorem reg_ne_spilled {n : Nat} (hlow : 8 ≤ n) (hhigh : n < 256) : BitVec.ofNat 8 n ≠ cgRegSpilled := by
  intro h
  have hnat := congrArg BitVec.toNat h
  rw [BitVec.toNat_ofNat, Nat.mod_eq_of_lt hhigh] at hnat
  have hzero : cgRegSpilled.toNat = 0 := by decide
  omega

/-- A register that is given back can be allocated. -/
theorem regsOk_freeReg (hregs : cg.RegsOk) {r : Byte} (hr : r ≠ cgRegSpilled) : (cg.freeReg r).RegsOk := by
  unfold Cg.freeReg
  split
  · exact hregs
  · refine ⟨hregs.low, hregs.high, fun r' hr' => ?_⟩
    rcases List.mem_cons.mp hr' with rfl | hr'
    · exact hr
    · exact hregs.pool r' hr'

/-- A register that is allocated is none that means a slot. -/
theorem cgAllocReg_effect {r : Byte} (hregs : cg.RegsOk) (h : cgAllocReg cg = .val r cg') :
    r ≠ cgRegSpilled ∧ cg'.map = cg.map ∧ cg'.valSpillCount = cg.valSpillCount ∧ cg'.RegsOk := by
  unfold cgAllocReg at h
  rw [Exec.run_bind, Exec.run_get] at h
  dsimp only at h
  cases hpool : cg.freeList with
  | cons r' rest =>
    rw [hpool] at h
    obtain ⟨rfl, rfl⟩ := Outcome.val.inj h
    refine ⟨hregs.pool r' (by rw [hpool]; exact List.mem_cons_self), rfl, rfl, hregs.low, hregs.high, fun r hr => ?_⟩
    exact hregs.pool r (by rw [hpool]; exact List.mem_cons_of_mem _ hr)
  | nil =>
    rw [hpool] at h
    dsimp only at h
    by_cases hnext : cg.nextReg > cgMaxEmitReg
    · rw [Exec.run_bind, Exec.run_stopIf_of cg hnext] at h
      nomatch h
    · rw [Exec.run_bind, Exec.run_stopIf_of_not cg hnext] at h
      obtain ⟨rfl, rfl⟩ := Outcome.val.inj h
      have hbound : cg.nextReg ≤ 252 := Nat.not_lt.mp hnext
      refine ⟨reg_ne_spilled hregs.low (by omega), rfl, rfl, Nat.le_succ_of_le hregs.low, Nat.succ_le_succ hbound, hregs.pool⟩

/-- The loop over the operands changes the pool only. -/
theorem freeOperands_frame (b : Ir.Block) (later : List Inst) (dst : Option Home) (vs : List Val) (hregs : cg.RegsOk) :
    (vs.foldl (Cg.freeOperand fn b later dst) cg).map = cg.map ∧
      (vs.foldl (Cg.freeOperand fn b later dst) cg).valSpillCount = cg.valSpillCount ∧
      (vs.foldl (Cg.freeOperand fn b later dst) cg).RegsOk := by
  induction vs generalizing cg with
  | nil => exact ⟨rfl, rfl, hregs⟩
  | cons v vs ih =>
    have hstep : (Cg.freeOperand fn b later dst cg v).map = cg.map ∧
        (Cg.freeOperand fn b later dst cg v).valSpillCount = cg.valSpillCount ∧ (Cg.freeOperand fn b later dst cg v).RegsOk := by
      have hfree : ∀ r, (cg.freeReg r).map = cg.map ∧ (cg.freeReg r).valSpillCount = cg.valSpillCount := by
        intro r
        unfold Cg.freeReg
        split
        · exact ⟨rfl, rfl⟩
        · exact ⟨rfl, rfl⟩
      unfold Cg.freeOperand
      split
      · split
        · exact ⟨rfl, rfl, hregs⟩
        · rename_i h _
          split
          · exact ⟨rfl, rfl, hregs⟩
          · rename_i hkeep
            exact ⟨(hfree h.reg).1, (hfree h.reg).2, regsOk_freeReg hregs fun hr => hkeep (Or.inr (Or.inl hr))⟩
      · exact ⟨rfl, rfl, hregs⟩
    obtain ⟨hmap, hcount, hok⟩ := ih hstep.2.2
    rw [List.foldl_cons]
    exact ⟨hmap.trans hstep.1, hcount.trans hstep.2.1, hok⟩

/-- A scalar result: a register, or a slot when there is none. -/
theorem preAllocDef_effect (hfn : fn.WellFormed) (hi : i ∈ fn.insts) (hregs : cg.RegsOk) (halias : fn.isAlias i = false)
    (hwords : fn.resultWords i = 1) :
    (cg.preAllocDef i.result).2.RegsOk ∧
      ((cg.freeList = [] ∧ cgMaxSsaReg < cg.nextReg) ∧ (∃ h, SlotEffect fn cg (cg.preAllocDef i.result).2 i.result h 1 false) ∨
        ¬(cg.freeList = [] ∧ cgMaxSsaReg < cg.nextReg) ∧ OtherEffect fn cg (cg.preAllocDef i.result).2) := by
  unfold Cg.preAllocDef
  cases hpool : cg.freeList with
  | cons r rest =>
    have hr : r ≠ cgRegSpilled := hregs.pool r (by rw [hpool]; exact List.mem_cons_self)
    refine ⟨⟨hregs.low, hregs.high, fun r' hr' => hregs.pool r' (by rw [hpool]; exact List.mem_cons_of_mem _ hr')⟩, Or.inr ⟨?_, rfl, ?_⟩⟩
    · exact fun h => nomatch h.1
    · exact Or.inr ⟨i.result, { reg := r }, rfl, Or.inr ⟨(hfn.aliases_eq hi).trans halias, hr, rfl⟩⟩
  | nil =>
    dsimp only
    by_cases hnext : cg.nextReg ≤ cgMaxSsaReg
    · rw [if_pos hnext]
      have hbound : cg.nextReg ≤ 229 := hnext
      refine ⟨⟨Nat.le_succ_of_le hregs.low, by dsimp only [Cg.assign]; omega, fun r' hr' => hregs.pool r' hr'⟩, Or.inr ⟨?_, rfl, ?_⟩⟩
      · exact fun h => absurd hnext (Nat.not_le.mpr h.2)
      · exact Or.inr ⟨i.result, _, rfl, Or.inr ⟨(hfn.aliases_eq hi).trans halias, reg_ne_spilled hregs.low (by omega), rfl⟩⟩
    · rw [if_neg hnext]
      refine ⟨⟨hregs.low, hregs.high, hregs.pool⟩, Or.inl ⟨⟨rfl, Nat.not_le.mp hnext⟩, _, rfl, rfl, ?_, Nat.one_pos, ?_, rfl, ?_, rfl,
        fun h => absurd h Bool.false_ne_true⟩⟩
      · rw [hfn.slotWords_eq hi, hwords]
      · rw [hfn.aliases_eq hi, halias]
      · unfold Home.start
        cases slotOf cg.valSpillCount with
        | none => rfl
        | some s => rfl

/-- A result that always takes slots. -/
theorem takeSlots_effect (hfn : fn.WellFormed) (hi : i ∈ fn.insts) (halias : fn.isAlias i = false) {h : Home} {words : Nat}
    (hwords : fn.resultWords i = words) (hspilled : h.reg = cgRegSpilled) (hstart : h.start = slotOf cg.valSpillCount)
    (hagg : h.aggSlot = if fn.isAggregate i = true then slotOf cg.valSpillCount else none) :
    SlotEffect fn cg (cg.takeSlots i.result h words) i.result h words (fn.isAggregate i) :=
  ⟨rfl, rfl, (hfn.slotWords_eq hi).trans hwords, hwords ▸ hfn.resultWords_pos hi, (hfn.aliases_eq hi).trans halias, hspilled, hstart, hagg,
    fun h => hwords ▸ Func.resultWords_le_four h⟩

theorem start_i64 (slot : Option Nat) : Home.start { reg := cgRegSpilled, i64Slot := slot } = slot := by
  cases slot with
  | none => rfl
  | some s => rfl

theorem start_agg (slot : Option Nat) : Home.start { reg := cgRegSpilled, aggSlot := slot } = slot := by
  cases slot with
  | none => rfl
  | some s => rfl

theorem start_vec (slot : Option Nat) : Home.start { reg := cgRegSpilled, vecSlot := slot } = slot := by
  cases slot with
  | none => rfl
  | some s => rfl

/-- What the plan does for one result: a home, its slots, and registers that can be allocated. -/
theorem preAllocResult_effect (hfn : fn.WellFormed) (b : Ir.Block) (later : List Inst) (hi : i ∈ fn.insts) (hregs : cg.RegsOk) :
    (cg.preAllocResult fn i).2.RegsOk ∧
      (TakesSlots fn cg (.inst b i later) ∧ (∃ h, SlotEffect fn cg (cg.preAllocResult fn i).2 i.result h (fn.resultWords i) (fn.isAggregate i)) ∨
        ¬TakesSlots fn cg (.inst b i later) ∧ OtherEffect fn cg (cg.preAllocResult fn i).2) := by
  have hkeep : ∀ {l : Local} {h : Home} {words : Nat}, (cg.takeSlots l h words).RegsOk := ⟨hregs.low, hregs.high, hregs.pool⟩
  unfold Cg.preAllocResult
  dsimp only
  cases hcall : overflowCall? i with
  | some c =>
    have halias : fn.isAlias i = false := Func.isAlias_eq_false_of_overflow hcall
    have hwords : fn.resultWords i = cgOverflowValWords c.2 + 1 := by
      unfold Func.resultWords
      rw [hcall]
    refine ⟨hkeep, Or.inl ⟨⟨halias, Or.inl (by rw [hcall]; rfl)⟩, { reg := cgRegSpilled, aggSlot := slotOf cg.valSpillCount }, ?_⟩⟩
    rw [hwords]
    exact takeSlots_effect hfn hi halias hwords rfl (start_agg _) (if_pos (by rw [Func.isAggregate, hcall]; rfl)).symm
  | none =>
    dsimp only
    have hagg : fn.isAggregate i = fn.isCmpxchg i := by rw [Func.isAggregate, hcall, Option.isSome_none, Bool.false_or]
    have hwords : fn.resultWords i = if fn.isCmpxchg i = true then fn.cmpxchgValWords i + 1 else if i.ty.isI65 = true then 3
        else if i.ty.isWide = true then 2 else if i.ty.isVector = true then i.ty.vecLanes else 1 := by
      unfold Func.resultWords
      rw [hcall]
    by_cases hcmpxchg : fn.isCmpxchg i = true
    · have halias := Func.isAlias_eq_false_of_cmpxchg hcmpxchg
      rw [if_pos hcmpxchg] at hwords ⊢
      refine ⟨hkeep, Or.inl ⟨⟨halias, Or.inr (Or.inl hcmpxchg)⟩,
        { reg := cgRegSpilled, aggSlot := slotOf cg.valSpillCount }, ?_⟩⟩
      rw [hwords]
      exact takeSlots_effect hfn hi halias hwords rfl (start_agg _) (if_pos (hagg.trans hcmpxchg)).symm
    · rw [if_neg hcmpxchg] at hwords ⊢
      have hnotAgg : fn.isAggregate i = false := hagg.trans (eq_false_of_ne_true hcmpxchg)
      have hnone : ∀ o : Option Nat, (none : Option Nat) = if fn.isAggregate i = true then o else none := fun o => by
        rw [hnotAgg, if_neg Bool.false_ne_true]
      by_cases halias : fn.isAlias i = true
      · rw [if_pos halias]
        refine ⟨⟨hregs.low, hregs.high, hregs.pool⟩, Or.inr ⟨fun h => Bool.false_ne_true (h.1.symm.trans halias), rfl, ?_⟩⟩
        refine Or.inr ⟨i.result, _, rfl, Or.inl ?_⟩
        exact ⟨(hfn.aliases_eq hi).trans halias, i, hfn.inst?_eq hi, rfl⟩
      · have halias' : fn.isAlias i = false := eq_false_of_ne_true halias
        rw [if_neg halias]
        by_cases hi65 : i.ty.isI65 = true
        · rw [if_pos hi65] at hwords ⊢
          refine ⟨hkeep, Or.inl ⟨⟨halias', Or.inr (Or.inr (Or.inl hi65))⟩,
            { reg := cgRegSpilled, i64Slot := slotOf cg.valSpillCount }, ?_⟩⟩
          rw [hwords]
          exact takeSlots_effect hfn hi halias' hwords rfl (start_i64 _) (hnone _)
        · rw [if_neg hi65] at hwords ⊢
          by_cases hwide : i.ty.isWide = true
          · rw [if_pos hwide] at hwords ⊢
            refine ⟨hkeep, Or.inl ⟨⟨halias', Or.inr (Or.inr (Or.inr (Or.inl hwide)))⟩,
              { reg := cgRegSpilled, i64Slot := slotOf cg.valSpillCount }, ?_⟩⟩
            rw [hwords]
            exact takeSlots_effect hfn hi halias' hwords rfl (start_i64 _) (hnone _)
          · rw [if_neg hwide] at hwords ⊢
            by_cases hvector : i.ty.isVector = true
            · rw [if_pos hvector] at hwords ⊢
              refine ⟨hkeep, Or.inl ⟨⟨halias', Or.inr (Or.inr (Or.inr (Or.inr (Or.inl hvector))))⟩,
                { reg := cgRegSpilled, vecSlot := slotOf cg.valSpillCount }, ?_⟩⟩
              rw [hwords]
              exact takeSlots_effect hfn hi halias' hwords rfl (start_vec _) (hnone _)
            · rw [if_neg hvector] at hwords ⊢
              have htakes : TakesSlots fn cg (.inst b i later) ↔
                  (i.ty.kind ≠ .void ∧ fn.isEhValue (.loc i.result) = false) ∧ cg.freeList = [] ∧ cgMaxSsaReg < cg.nextReg := by
                have hnotCall : ¬(overflowCall? i).isSome = true := by
                  rw [hcall]
                  exact Bool.false_ne_true
                refine ⟨fun h => ?_, fun h => ⟨halias', Or.inr (Or.inr (Or.inr (Or.inr (Or.inr ⟨h.1.1, h.1.2, h.2.1, h.2.2⟩))))⟩⟩
                rcases h.2 with h | h | h | h | h | h
                · exact absurd h hnotCall
                · exact absurd h hcmpxchg
                · exact absurd h hi65
                · exact absurd h hwide
                · exact absurd h hvector
                · exact ⟨⟨h.1, h.2.1⟩, h.2.2.1, h.2.2.2⟩
              by_cases hvalue : i.ty.kind ≠ .void ∧ fn.isEhValue (.loc i.result) = false
              · rw [if_pos hvalue]
                obtain ⟨hok, ⟨hfull, heffect⟩ | ⟨hfull, heffect⟩⟩ := preAllocDef_effect hfn hi hregs halias' hwords
                · rw [hwords, hnotAgg]
                  exact ⟨hok, Or.inl ⟨htakes.mpr ⟨hvalue, hfull⟩, heffect⟩⟩
                · exact ⟨hok, Or.inr ⟨fun h => hfull (htakes.mp h).2, heffect⟩⟩
              · rw [if_neg hvalue]
                exact ⟨hregs, Or.inr ⟨fun h => hvalue (htakes.mp h).1, rfl, Or.inl rfl⟩⟩

end PreAllocAux

open PreAllocAux

/-- A step that is one of a function: its instruction is one of the function's. -/
def AllocStep.Of (fn : Func) : AllocStep → Prop
  | .inst _ i _ => i ∈ fn.insts
  | _ => True

/-- A turn takes slots for a value from the count on, or none. -/
theorem allocStep_effect {fn : Func} {cg cg' : Cg} {s : AllocStep} (hfn : fn.WellFormed) (hs : s.Of fn) (hregs : cg.RegsOk)
    (h : cgAllocStep fn s cg = .val () cg') : cg'.RegsOk ∧
      (TakesSlots fn cg s ∧ (∃ l home, SlotEffect fn cg cg' l home (s.words fn) (s.isAggregate fn)) ∨ ¬TakesSlots fn cg s ∧ OtherEffect fn cg cg') := by
  cases s with
  | param k ty =>
    rw [cgAllocStep] at h
    by_cases hwide : ty.isWide = true
    · rw [if_pos hwide, Exec.run_modify] at h
      obtain ⟨-, rfl⟩ := Outcome.val.inj h
      refine ⟨⟨hregs.low, hregs.high, hregs.pool⟩, Or.inl ⟨hwide, .arg k,
        { reg := cgRegSpilled, i64Slot := slotOf cg.valSpillCount }, ?_⟩⟩
      rw [AllocStep.words, if_pos hwide]
      exact ⟨rfl, rfl, rfl, Nat.two_pos, rfl, rfl, start_i64 _, rfl, fun h => absurd h Bool.false_ne_true⟩
    · rw [if_neg hwide, Exec.run_bind] at h
      cases hreg : cgAllocReg cg with
      | val r cg₁ =>
        rw [hreg] at h
        obtain ⟨-, rfl⟩ := Outcome.val.inj h
        obtain ⟨hr, hmap, hcount, hok⟩ := cgAllocReg_effect hregs hreg
        refine ⟨⟨hok.low, hok.high, hok.pool⟩, Or.inr ⟨hwide, hcount, Or.inr ⟨.arg k, { reg := r }, ?_, Or.inr ⟨rfl, hr, rfl⟩⟩⟩⟩
        rw [← hmap]
        rfl
      | stop e cg₁ =>
        rw [hreg] at h
        cases h
      | oob =>
        rw [hreg] at h
        cases h
  | block =>
    rw [cgAllocStep, Exec.run_modify] at h
    obtain ⟨-, rfl⟩ := Outcome.val.inj h
    exact ⟨⟨hregs.low, hregs.high, fun r hr => by cases hr⟩, Or.inr ⟨id, rfl, Or.inl rfl⟩⟩
  | inst b i later =>
    rw [cgAllocStep, Exec.run_modify] at h
    obtain ⟨-, rfl⟩ := Outcome.val.inj h
    dsimp only
    obtain ⟨hok, heffect⟩ := preAllocResult_effect hfn b later hs hregs
    obtain ⟨hmap, hcount, hok'⟩ := @freeOperands_frame fn _ b later (cg.preAllocResult fn i).1 i.operands hok
    refine ⟨hok', ?_⟩
    rcases heffect with ⟨htakes, home, hslots⟩ | ⟨htakes, hother⟩
    · exact Or.inl ⟨htakes, i.result, home, { hslots with map := hmap.trans hslots.map, count := hcount.trans hslots.count }⟩
    · refine Or.inr ⟨htakes, hcount.trans hother.count, ?_⟩
      rcases hother.map with hsame | ⟨l, home, hnew, hkind⟩
      · exact Or.inl (hmap.trans hsame)
      · exact Or.inr ⟨l, home, hmap.trans hnew, hkind⟩

end CronoVM
