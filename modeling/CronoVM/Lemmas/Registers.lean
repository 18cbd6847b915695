import CronoVM.Lemmas.ControlFlow
import CronoVM.Theorems.FrameSlots

/-!
# Registers that are given again

A register goes back to the pool once its value is spent: the value is local to the block, and no instruction from then on uses it. Values
that share a register are the one spent when the other is defined.
-/

namespace CronoVM

open Checked Ir

/-! ## Spent values -/

/-- A value of the block that is given and used before instruction number `t` of the function only. -/
def Spent (fn : Func) (b : Ir.Block) (t : Nat) (v : Local) : Prop :=
  ∃ s d, fn.insts[s]? = some d ∧ s < t ∧ d ∈ b.insts ∧ v = d.result ∧ fn.valueIsBlockLocal (.loc v) = true ∧
    ∀ (s' : Nat) (j : Inst), fn.insts[s']? = some j → .loc v ∈ j.operands → s' < t

/-- The first value is spent where the second is defined, in the same block. -/
def Released (fn : Func) (v w : Local) : Prop :=
  ∃ b ∈ fn.blocks, ∃ t i, fn.insts[t]? = some i ∧ i ∈ b.insts ∧ w = i.result ∧ Spent fn b t v

/-- The registers that the pass has given before instruction number `t`, which is one of the block. -/
structure RegsAt (fn : Func) (b : Ir.Block) (t : Nat) (cg : Cg) : Prop where
  low : 8 ≤ cg.nextReg
  high : cg.nextReg ≤ 253
  placed : ∀ e ∈ cg.map, ∀ (s : Nat) (j : Inst), fn.insts[s]? = some j → e.1 = j.result → s < t
  given : ∀ e ∈ cg.map, e.2.reg ≠ cgRegSpilled → 8 ≤ e.2.reg.toNat ∧ e.2.reg.toNat < cg.nextReg
  plain : ∀ e ∈ cg.map, e.2.reg ≠ cgRegSpilled → e.2 = { reg := e.2.reg }
  free : ∀ r ∈ cg.freeList, 8 ≤ r.toNat ∧ r.toNat < cg.nextReg
  apart : cg.map.Pairwise fun e e' => e.2.reg ≠ cgRegSpilled → e.2.reg = e'.2.reg → Released fn e.1 e'.1
  nodup : cg.freeList.Nodup
  pool : ∀ r ∈ cg.freeList, ∀ e ∈ cg.map, e.2.reg = r → Spent fn b t e.1

section

variable {fn : Func} {b : Ir.Block} {t : Nat} {cg cg' : Cg}

theorem Spent.mono {v : Local} {t' : Nat} (h : Spent fn b t v) (hle : t ≤ t') : Spent fn b t' v := by
  obtain ⟨s, d, hs, hlt, hd, rfl, hlocal, huses⟩ := h
  exact ⟨s, d, hs, hlt.trans_le hle, hd, rfl, hlocal, fun s' j hj hu => (huses s' j hj hu).trans_le hle⟩

/-- A value that has an instruction is its result. -/
theorem inst?_spec {v : Val} {d : Inst} (h : fn.inst? v = some d) : v = .loc d.result ∧ d ∈ fn.insts := by
  unfold Func.inst? at h
  split at h
  · rename_i id
    have hid : d.id = id := eq_of_beq (List.find?_some (p := fun i : Inst => i.id == id) h)
    subst hid
    exact ⟨rfl, List.mem_of_find?_eq_some h⟩
  · nomatch h

theorem mem_of_parent? (hfn : fn.Ssa) {d : Inst} (hb : b ∈ fn.blocks) (hd : d ∈ fn.insts) (h : fn.parent? d.id = some b.id) : d ∈ b.insts := by
  obtain ⟨c, hc, hdc⟩ := List.mem_flatMap.mp hd
  rw [hfn.parent?_eq hc hdc] at h
  obtain rfl := hfn.block_of_id hc hb (Option.some.inj h)
  exact hdc

/-- The users of a block-local value are in its block, and none is a phi. -/
theorem users_of_blockLocal (hfn : fn.Ssa) {d : Inst} (hb : b ∈ fn.blocks) (hd : d ∈ b.insts)
    (hlocal : fn.valueIsBlockLocal (.loc d.result) = true) :
    d.op ≠ .phi ∧ ∀ j ∈ fn.insts, .loc d.result ∈ j.operands → j.op ≠ .phi ∧ j ∈ b.insts := by
  unfold Func.valueIsBlockLocal at hlocal
  rw [hfn.inst?_eq (Func.mem_insts hb hd)] at hlocal
  simp only [Bool.and_eq_true, decide_eq_true_eq, List.all_eq_true] at hlocal
  obtain ⟨⟨hop, -⟩, husers⟩ := hlocal
  refine ⟨hop, fun j hj huse => ?_⟩
  obtain ⟨hjop, hparent⟩ := husers j (List.mem_filter.mpr ⟨hj, decide_eq_true huse⟩)
  rw [hfn.parent?_eq hb hd] at hparent
  exact ⟨hjop, mem_of_parent? hfn hb hj hparent⟩

/-- A value that has been released is not live with its successor. -/
theorem Released.reused (hfn : fn.Ssa) {v w : Local} (h : Released fn v w) : fn.Reused v w := by
  obtain ⟨b, hb, t, i, hi, hib, rfl, s, d, hd, hst, hdb, rfl, hlocal, huses⟩ := h
  obtain ⟨hdop, husers⟩ := users_of_blockLocal hfn hb hdb hlocal
  have hsub : b.body.Sublist fn.insts := List.filter_sublist.trans (Func.insts_sublist hb)
  obtain ⟨f, hf⟩ := List.sublist_iff_exists_orderEmbedding_getElem?_eq.mp hsub
  have hplace : ∀ {k n : Nat} {j : Inst}, b.body[k]? = some j → fn.insts[n]? = some j → f k = n := by
    intro k n j hk hn
    exact hfn.place_eq ((hf k).symm.trans hk) hn rfl
  have hbody : ∀ {j : Inst}, j ∈ b.insts → j.op ≠ .phi → ∃ k, b.body[k]? = some j :=
    fun hj hop => List.mem_iff_getElem?.mp (Func.mem_body.mpr ⟨hj, hop⟩)
  have hiop : i.op ≠ .phi := by
    have hpair := hfn.phisFirst b hb
    obtain ⟨g, hg⟩ := List.sublist_iff_exists_orderEmbedding_getElem?_eq.mp (Func.insts_sublist hb)
    obtain ⟨k, hk⟩ := List.mem_iff_getElem?.mp hdb
    obtain ⟨n, hn⟩ := List.mem_iff_getElem?.mp hib
    have hgk : g k = s := hfn.place_eq ((hg k).symm.trans hk) hd rfl
    have hgn : g n = t := hfn.place_eq ((hg n).symm.trans hn) hi rfl
    have hlt : k < n := g.lt_iff_lt.mp (by omega)
    obtain ⟨hklt, hkd⟩ := List.getElem?_eq_some_iff.mp hk
    obtain ⟨hnlt, hni⟩ := List.getElem?_eq_some_iff.mp hn
    have hrel := List.pairwise_iff_getElem.mp hpair k n hklt hnlt hlt
    rw [hkd, hni] at hrel
    exact hrel hdop
  obtain ⟨k₁, hk₁⟩ := hbody hdb hdop
  obtain ⟨k₂, hk₂⟩ := hbody hib hiop
  have hf₁ := hplace hk₁ hd
  have hf₂ := hplace hk₂ hi
  refine ⟨b, hb, k₁, k₂, d, i, hk₁, hk₂, rfl, rfl, f.lt_iff_lt.mp (by omega), ?_, ?_⟩
  · intro c hc phi hphi huse
    obtain ⟨hmem, hop⟩ := (hfn.mem_phis hc).mp hphi
    exact (husers phi (Func.mem_insts hc hmem) huse).1 hop
  · intro c hc k j hk huse
    have hjc := (Func.mem_body.mp (List.mem_of_getElem? hk)).1
    have hjb := (husers j (Func.mem_insts hc hjc) huse).2
    obtain rfl := hfn.block_eq hc hb hjc hjb
    have hj : fn.insts[f k]? = some j := (hf k).symm.trans hk
    have hlt := huses (f k) j hj huse
    exact ⟨rfl, f.lt_iff_lt.mp (by omega)⟩

/-! ## A turn -/

/-- A turn that gives no register. -/
theorem RegsAt.skip (h : RegsAt fn b t cg) : RegsAt fn b (t + 1) cg :=
  { h with
    placed := fun e he s j hj heq => (h.placed e he s j hj heq).trans (Nat.lt_succ_self t)
    pool := fun r hr e he heq => (h.pool r hr e he heq).mono (Nat.le_succ t) }

/-- The value of instruction number `t` gets a home. -/
theorem RegsAt.append (hfn : fn.WellFormed) (h : RegsAt fn b t cg) {i : Inst} (hi : fn.insts[t]? = some i) {home : Home}
    (hmap : cg'.map = cg.map ++ [(i.result, home)]) (hlow : cg.nextReg ≤ cg'.nextReg) (hhigh : cg'.nextReg ≤ 253)
    (hgiven : home.reg ≠ cgRegSpilled → 8 ≤ home.reg.toNat ∧ home.reg.toNat < cg'.nextReg)
    (hplain : home.reg ≠ cgRegSpilled → home = { reg := home.reg })
    (hfree : cg'.freeList.Sublist cg.freeList) (hpool : home.reg ∉ cg'.freeList)
    (hshare : ∀ e ∈ cg.map, e.2.reg ≠ cgRegSpilled → e.2.reg = home.reg → Released fn e.1 i.result) : RegsAt fn b (t + 1) cg' where
  low := h.low.trans hlow
  high := hhigh
  placed := by
    intro e he s j hj heq
    rw [hmap] at he
    rcases List.mem_append.mp he with he | he
    · exact (h.placed e he s j hj heq).trans (Nat.lt_succ_self t)
    · rw [List.mem_singleton.mp he] at heq
      rw [hfn.place_eq hi hj heq]
      exact Nat.lt_succ_self s
  given := by
    intro e he hreg
    rw [hmap] at he
    rcases List.mem_append.mp he with he | he
    · obtain ⟨hge, hlt⟩ := h.given e he hreg
      exact ⟨hge, hlt.trans_le hlow⟩
    · rw [List.mem_singleton.mp he] at hreg ⊢
      exact hgiven hreg
  plain := by
    intro e he hreg
    rw [hmap] at he
    rcases List.mem_append.mp he with he | he
    · exact h.plain e he hreg
    · rw [List.mem_singleton.mp he] at hreg ⊢
      exact hplain hreg
  free := fun r hr => ⟨(h.free r (hfree.subset hr)).1, (h.free r (hfree.subset hr)).2.trans_le hlow⟩
  apart := by
    rw [hmap]
    refine List.pairwise_append.mpr ⟨h.apart, List.pairwise_singleton _ _, fun e he e' he' => ?_⟩
    rw [List.mem_singleton.mp he']
    exact hshare e he
  nodup := h.nodup.sublist hfree
  pool := by
    intro r hr e he heq
    rw [hmap] at he
    rcases List.mem_append.mp he with he | he
    · exact (h.pool r (hfree.subset hr) e he heq).mono (Nat.le_succ t)
    · rw [List.mem_singleton.mp he] at heq
      exact absurd (heq ▸ hr) hpool

/-- A home without a register. -/
theorem RegsAt.appendSlots (hfn : fn.WellFormed) (h : RegsAt fn b t cg) {i : Inst} (hi : fn.insts[t]? = some i) {home : Home}
    (hreg : home.reg = cgRegSpilled) (hmap : cg'.map = cg.map ++ [(i.result, home)]) (hnext : cg'.nextReg = cg.nextReg)
    (hfree : cg'.freeList = cg.freeList) : RegsAt fn b (t + 1) cg' := by
  refine h.append hfn hi hmap hnext.ge (hnext ▸ h.high) (fun hne => absurd hreg hne) (fun hne => absurd hreg hne) (hfree ▸ List.Sublist.refl _) ?_
    fun e he hne heq => absurd (heq.trans hreg) hne
  rw [hfree, hreg]
  intro hmem
  have hzero : cgRegSpilled.toNat = 0 := rfl
  have hge := (h.free _ hmem).1
  omega

/-- A scalar result. -/
theorem RegsAt.preAllocDef (hfn : fn.WellFormed) (hb : b ∈ fn.blocks) (h : RegsAt fn b t cg) {i : Inst} (hi : fn.insts[t]? = some i)
    (hib : i ∈ b.insts) : RegsAt fn b (t + 1) (cg.preAllocDef i.result).2 := by
  unfold Cg.preAllocDef
  cases hpool : cg.freeList with
  | cons r rest =>
    have hr : r ∈ cg.freeList := hpool ▸ List.mem_cons_self
    have hnodup := h.nodup
    rw [hpool] at hnodup
    let home : Home := { reg := r }
    have hmap : cg.map ++ [(i.result, home)] = cg.map ++ [(i.result, home)] := rfl
    refine h.append hfn hi hmap (Nat.le_refl _) h.high (fun _ => h.free r hr) (fun _ => rfl) ?_ (List.nodup_cons.mp hnodup).1 ?_
    · rw [hpool]
      exact List.sublist_cons_self r rest
    · exact fun e he _ heq => ⟨b, hb, t, i, hi, hib, rfl, h.pool r hr e he heq⟩
  | nil =>
    dsimp only
    by_cases hnext : cg.nextReg ≤ cgMaxSsaReg
    · rw [if_pos hnext]
      have hmax : cgMaxSsaReg = 229 := rfl
      have hlow := h.low
      have hr : (BitVec.ofNat 8 cg.nextReg).toNat = cg.nextReg := by
        rw [BitVec.toNat_ofNat]
        exact Nat.mod_eq_of_lt (by omega)
      let home : Home := { reg := BitVec.ofNat 8 cg.nextReg }
      have hmap : cg.map ++ [(i.result, home)] = cg.map ++ [(i.result, home)] := rfl
      refine h.append hfn hi hmap (Nat.le_succ _) ?_ (fun _ => ?_) (fun _ => rfl)
        (List.Sublist.refl _) ?_ ?_
      · show cg.nextReg + 1 ≤ 253
        omega
      · show 8 ≤ (BitVec.ofNat 8 cg.nextReg).toNat ∧ (BitVec.ofNat 8 cg.nextReg).toNat < cg.nextReg + 1
        omega
      · intro hmem
        have hlt : (BitVec.ofNat 8 cg.nextReg).toNat < cg.nextReg := (h.free _ hmem).2
        omega
      · intro e he hne heq
        have hlt := (h.given e he hne).2
        rw [heq, hr] at hlt
        exact absurd hlt (Nat.lt_irrefl _)
    · rw [if_neg hnext]
      exact h.appendSlots hfn hi rfl rfl rfl rfl

theorem RegsAt.preAllocResult (hfn : fn.WellFormed) (hb : b ∈ fn.blocks) (h : RegsAt fn b t cg) {i : Inst} (hi : fn.insts[t]? = some i)
    (hib : i ∈ b.insts) : RegsAt fn b (t + 1) (cg.preAllocResult fn i).2 := by
  have hslots : ∀ (home : Home) (words : Nat), home.reg = cgRegSpilled → RegsAt fn b (t + 1) (cg.takeSlots i.result home words) :=
    fun home words hreg => h.appendSlots hfn hi hreg rfl rfl rfl
  unfold Cg.preAllocResult
  dsimp only
  cases overflowCall? i with
  | some c => exact hslots _ _ rfl
  | none =>
    dsimp only
    split
    · exact hslots _ _ rfl
    split
    · exact h.appendSlots hfn hi rfl rfl rfl rfl
    split
    · exact hslots _ _ rfl
    split
    · exact hslots _ _ rfl
    split
    · exact hslots _ _ rfl
    split
    · exact h.preAllocDef hfn hb hi hib
    · exact h.skip

/-- The register of an operand goes to the pool. -/
theorem RegsAt.freeReg (h : RegsAt fn b t cg) {r : Byte} (hr : 8 ≤ r.toNat ∧ r.toNat < cg.nextReg)
    (hspent : ∀ e ∈ cg.map, e.2.reg = r → Spent fn b t e.1) : RegsAt fn b t (cg.freeReg r) := by
  unfold Cg.freeReg
  split
  · exact h
  · rename_i hnew
    refine { h with free := ?_, nodup := List.nodup_cons.mpr ⟨fun hmem => hnew (Or.inl hmem), h.nodup⟩, pool := ?_ }
    · intro r' hr'
      rcases List.mem_cons.mp hr' with rfl | hr'
      · exact hr
      · exact h.free r' hr'
    · intro r' hr'
      rcases List.mem_cons.mp hr' with rfl | hr'
      · exact hspent
      · exact h.pool r' hr'

/-- After the last use of a value no other one has its register, unless that one is spent too. -/
theorem RegsAt.freeOperand (hfn : fn.Ssa) (hb : b ∈ fn.blocks) (h : RegsAt fn b (t + 1) cg) {i : Inst} (hi : fn.insts[t]? = some i)
    {later : List Inst} (hlater : ∀ (s : Nat) (j : Inst), fn.insts[s]? = some j → j ∈ b.insts → t < s → j ∈ later) (dst : Option Home) {v : Val}
    (hv : v ∈ i.operands) : RegsAt fn b (t + 1) (Cg.freeOperand fn b later dst cg v) := by
  unfold Cg.freeOperand
  split
  case isFalse => exact h
  case isTrue hcond =>
    obtain ⟨hsome, hparent, hlocal, hlast⟩ := hcond
    obtain ⟨d, hd⟩ := Option.isSome_iff_exists.mp hsome
    obtain ⟨rfl, hdfn⟩ := inst?_spec hd
    rw [hd, Option.bind_some] at hparent
    have hdb := mem_of_parent? hfn hb hdfn hparent
    obtain ⟨-, husers⟩ := users_of_blockLocal hfn hb hdb hlocal
    split
    case h_1 => exact h
    case h_2 home hlookup =>
      split
      case isTrue => exact h
      case isFalse hkeep =>
        have hreg : home.reg ≠ cgRegSpilled := fun hr => hkeep (Or.inr (Or.inl hr))
        obtain ⟨e, hfind, rfl⟩ := Option.map_eq_some_iff.mp hlookup
        have hmem := List.mem_of_find?_eq_some hfind
        have hfirst : e.1 = d.result := of_decide_eq_true (List.find?_some (p := fun e : Local × Home => e.1 = d.result) hfind)
        obtain ⟨s, hs⟩ := List.mem_iff_getElem?.mp hdfn
        have hst := h.placed e hmem s d hs hfirst
        refine h.freeReg (h.given e hmem hreg) fun e' hmem' heq => ?_
        by_cases hsame : e' = e
        · -- the value itself: its later users would be among those after the instruction
          subst hsame
          refine ⟨s, d, hs, hst, hdb, hfirst, hfirst ▸ hlocal, fun s' j hj huse => ?_⟩
          rw [hfirst] at huse
          by_contra hge
          have hin := hlater s' j hj (husers j (List.mem_of_getElem? hj) huse).2 (by omega)
          exact of_decide_eq_true (List.all_eq_true.mp hlast j hin) huse
        · rcases Func.rel_or_rel h.apart hmem' hmem hsame with hrel | hrel
          · obtain ⟨c, hc, t', i', hi', hi'c, heq', hspent⟩ := hrel (heq ▸ hreg) heq
            have hplace := hfn.place_eq hs hi' (hfirst.symm.trans heq')
            obtain rfl : i' = d := hfn.eq_of_result (List.mem_of_getElem? hi') hdfn (heq'.symm.trans hfirst)
            obtain rfl := hfn.block_eq hc hb hi'c hdb
            exact hspent.mono (by omega)
          · -- a value defined after the last use of this one: but this instruction uses it
            obtain ⟨c, hc, t', i', hi', hi'c, heq', hspent⟩ := hrel hreg heq.symm
            obtain ⟨-, -, -, -, -, -, -, huses⟩ := hspent
            have hlt := huses t i hi (hfirst ▸ hv)
            have hle := h.placed e' hmem' t' i' hi' heq'
            omega

theorem RegsAt.freeOperands (hfn : fn.Ssa) (hb : b ∈ fn.blocks) {i : Inst} (hi : fn.insts[t]? = some i) {later : List Inst}
    (hlater : ∀ (s : Nat) (j : Inst), fn.insts[s]? = some j → j ∈ b.insts → t < s → j ∈ later) (dst : Option Home) {vs : List Val}
    (hvs : ∀ v ∈ vs, v ∈ i.operands) (h : RegsAt fn b (t + 1) cg) : RegsAt fn b (t + 1) (vs.foldl (Cg.freeOperand fn b later dst) cg) := by
  induction vs generalizing cg with
  | nil => exact h
  | cons v vs ih =>
    exact ih (fun v' hv' => hvs v' (List.mem_cons_of_mem v hv')) (h.freeOperand hfn hb hi hlater dst (hvs v List.mem_cons_self))

/-! ## Runs -/

/-- The steps of blocks. -/
def blockSteps (blocks : List Ir.Block) : List AllocStep := blocks.flatMap fun b => .block :: instSteps b b.insts

/-- Where the pass is: what it has still to do, and the registers it has given. -/
inductive Cursor (fn : Func) : List AllocStep → Cg → Prop
  | params {ps : List (Ty × Nat)} {cg : Cg} : (∀ b, RegsAt fn b 0 cg) → cg.freeList = [] →
    Cursor fn ((ps.map fun p => .param p.2 p.1) ++ blockSteps fn.blocks) cg
  | insts {b : Ir.Block} {pre rest : List Inst} {blocks : List Ir.Block} {cg : Cg} : b ∈ fn.blocks → (∀ c ∈ blocks, c ∈ fn.blocks) →
    (∀ i ∈ rest, i ∈ b.insts) → fn.insts = pre ++ (rest ++ blocks.flatMap Ir.Block.insts) → RegsAt fn b pre.length cg →
    Cursor fn (instSteps b rest ++ blockSteps blocks) cg

theorem Cursor.regs {steps : List AllocStep} (h : Cursor fn steps cg) : ∃ b t, RegsAt fn b t cg := by
  cases h with
  | params hregs _ => exact ⟨⟨0, []⟩, 0, hregs _⟩
  | insts _ _ _ _ hregs => exact ⟨_, _, hregs⟩

/-- A block begins with an empty pool. -/
theorem Cursor.block {c : Ir.Block} {pre : List Inst} {blocks : List Ir.Block} {cg : Cg} (hc : c ∈ fn.blocks)
    (hblocks : ∀ c ∈ blocks, c ∈ fn.blocks) (hinsts : fn.insts = pre ++ (c.insts ++ blocks.flatMap Ir.Block.insts))
    (hregs : ∃ b, RegsAt fn b pre.length cg) : Cursor fn (instSteps c c.insts ++ blockSteps blocks) { cg with freeList := [] } := by
  obtain ⟨b, hregs⟩ := hregs
  exact .insts hc hblocks (fun i hi => hi) hinsts { hregs with
    free := fun r hr => absurd hr List.not_mem_nil
    nodup := List.nodup_nil
    pool := fun r hr => absurd hr List.not_mem_nil }

/-- The value of a parameter gets a home. -/
theorem RegsAt.param (h : RegsAt fn b t cg) {k : Nat} {home : Home} (hmap : cg'.map = cg.map ++ [(.arg k, home)])
    (hlow : cg.nextReg ≤ cg'.nextReg) (hhigh : cg'.nextReg ≤ 253)
    (hgiven : home.reg ≠ cgRegSpilled → home.reg.toNat = cg.nextReg ∧ cg.nextReg < cg'.nextReg)
    (hplain : home.reg ≠ cgRegSpilled → home = { reg := home.reg }) (hfree : cg'.freeList = []) :
    RegsAt fn b t cg' where
  low := h.low.trans hlow
  high := hhigh
  placed := by
    intro e he s j hj heq
    rw [hmap] at he
    rcases List.mem_append.mp he with he | he
    · exact h.placed e he s j hj heq
    · rw [List.mem_singleton.mp he] at heq
      exact Local.noConfusion heq
  given := by
    intro e he hreg
    rw [hmap] at he
    rcases List.mem_append.mp he with he | he
    · obtain ⟨hge, hlt⟩ := h.given e he hreg
      exact ⟨hge, hlt.trans_le hlow⟩
    · rw [List.mem_singleton.mp he] at hreg ⊢
      obtain ⟨heq, hlt⟩ := hgiven hreg
      exact ⟨heq ▸ h.low, heq ▸ hlt⟩
  plain := by
    intro e he hreg
    rw [hmap] at he
    rcases List.mem_append.mp he with he | he
    · exact h.plain e he hreg
    · rw [List.mem_singleton.mp he] at hreg ⊢
      exact hplain hreg
  free := fun r hr => absurd (hfree ▸ hr) List.not_mem_nil
  apart := by
    rw [hmap]
    refine List.pairwise_append.mpr ⟨h.apart, List.pairwise_singleton _ _, fun e he e' he' hne heq => ?_⟩
    rw [List.mem_singleton.mp he'] at heq
    have heq' : e.2.reg = home.reg := heq
    obtain ⟨hreg, -⟩ := hgiven (heq' ▸ hne)
    have hlt := (h.given e he hne).2
    rw [heq', hreg] at hlt
    exact absurd hlt (Nat.lt_irrefl _)
  nodup := by
    rw [hfree]
    exact List.nodup_nil
  pool := fun r hr => absurd (hfree ▸ hr) List.not_mem_nil

/-- One turn of a loop. -/
theorem Cursor.step (hfn : fn.Ssa) {s : AllocStep} {steps : List AllocStep} (h : Cursor fn (s :: steps) cg)
    (hstep : cgAllocStep fn s cg = .val () cg') : Cursor fn steps cg' := by
  have hnext : ∀ {b : Ir.Block} {blocks : List Ir.Block} {pre : List Inst}, (∀ c ∈ blocks, c ∈ fn.blocks) →
      fn.insts = pre ++ blocks.flatMap Ir.Block.insts → RegsAt fn b pre.length cg → s :: steps = blockSteps blocks → Cursor fn steps cg' := by
    intro b blocks pre hblocks hinsts hregs heq
    cases blocks with
    | nil => exact absurd heq (List.cons_ne_nil _ _)
    | cons c blocks =>
      obtain ⟨rfl, rfl⟩ := List.cons.inj heq
      have hfresh : cgAllocStep fn .block cg = .val () { cg with freeList := [] } := rfl
      obtain ⟨-, rfl⟩ := Outcome.val.inj (hfresh.symm.trans hstep)
      exact .block (hblocks c List.mem_cons_self) (fun c' hc' => hblocks c' (List.mem_cons_of_mem c hc')) hinsts ⟨b, hregs⟩
  generalize hsteps : s :: steps = all at h
  cases h with
  | @params ps cg hregs hpool =>
    cases ps with
    | nil =>
      have hbefore : RegsAt fn ⟨0, []⟩ ([] : List Inst).length cg := hregs _
      exact hnext (fun c hc => hc) rfl hbefore hsteps
    | cons p ps =>
      obtain ⟨rfl, rfl⟩ := List.cons.inj hsteps
      rw [cgAllocStep] at hstep
      by_cases hwide : p.1.isWide = true
      · rw [if_pos hwide, Exec.run_modify] at hstep
        obtain ⟨-, rfl⟩ := Outcome.val.inj hstep
        exact .params (fun b => (hregs b).param rfl (Nat.le_refl _) (hregs b).high (fun hne => absurd rfl hne) (fun hne => absurd rfl hne) hpool) hpool
      · rw [if_neg hwide, Exec.run_bind] at hstep
        unfold cgAllocReg at hstep
        rw [Exec.run_bind, Exec.run_get] at hstep
        dsimp only at hstep
        rw [hpool] at hstep
        dsimp only at hstep
        by_cases hfull : cg.nextReg > cgMaxEmitReg
        · rw [Exec.run_bind, Exec.run_stopIf_of cg hfull] at hstep
          cases hstep
        · rw [Exec.run_bind, Exec.run_stopIf_of_not cg hfull] at hstep
          obtain ⟨-, rfl⟩ := Outcome.val.inj hstep
          have hbound : cg.nextReg ≤ 252 := Nat.not_lt.mp hfull
          have hreg : (BitVec.ofNat 8 cg.nextReg).toNat = cg.nextReg := by
            rw [BitVec.toNat_ofNat]
            exact Nat.mod_eq_of_lt (by omega)
          refine .params (fun b => (hregs b).param rfl (Nat.le_succ _) (Nat.succ_le_succ hbound) (fun _ => ⟨hreg, Nat.lt_succ_self _⟩)
            (fun _ => rfl) hpool) hpool
  | @insts b pre rest blocks cg hb hblocks hrest hinsts hregs =>
    cases rest with
    | nil => exact hnext hblocks hinsts hregs hsteps
    | cons i later =>
      obtain ⟨rfl, rfl⟩ := List.cons.inj hsteps
      rw [cgAllocStep, Exec.run_modify] at hstep
      obtain ⟨-, rfl⟩ := Outcome.val.inj hstep
      have hi : fn.insts[pre.length]? = some i := by
        rw [hinsts, List.getElem?_append_right (Nat.le_refl _), Nat.sub_self]
        rfl
      have hib := hrest i List.mem_cons_self
      have hinsts' : fn.insts = (pre ++ [i]) ++ (later ++ blocks.flatMap Ir.Block.insts) := by
        rw [hinsts, List.append_assoc]
        rfl
      -- an instruction of the block behind this one is none of another block
      have hlater : ∀ (n : Nat) (j : Inst), fn.insts[n]? = some j → j ∈ b.insts → pre.length < n → j ∈ later := by
        intro n j hj hjb hn
        rw [hinsts', List.getElem?_append_right (by rw [List.length_append, List.length_singleton]; omega)] at hj
        rcases List.mem_append.mp (List.mem_of_getElem? hj) with hmem | hmem
        · exact hmem
        · obtain ⟨c, hc, hjc⟩ := List.mem_flatMap.mp hmem
          obtain rfl := hfn.block_eq hb (hblocks c hc) hjb hjc
          have hagain : i ∈ later ++ blocks.flatMap Ir.Block.insts := List.mem_append_right _ (List.mem_flatMap.mpr ⟨b, hc, hib⟩)
          obtain ⟨m, hm⟩ := List.mem_iff_getElem?.mp hagain
          have hm' : fn.insts[(pre ++ [i]).length + m]? = some i := by
            rw [hinsts', List.getElem?_append_right (Nat.le_add_right _ _), Nat.add_sub_cancel_left]
            exact hm
          have hsame := hfn.place_eq hi hm' rfl
          rw [List.length_append, List.length_singleton] at hsame
          omega
      refine .insts hb hblocks (fun j hj => hrest j (List.mem_cons_of_mem i hj)) hinsts' ?_
      rw [List.length_append, List.length_singleton]
      exact RegsAt.freeOperands hfn hb hi hlater _ (fun v hv => hv) (hregs.preAllocResult hfn.toWellFormed hb hi hib)

/-- A run of the pass. -/
theorem Cursor.run (hfn : fn.Ssa) {before after : List AllocStep} (h : Cursor fn (before ++ after) cg)
    (hrun : cgAllocSteps fn before cg = .val () cg') : Cursor fn after cg' := by
  induction before generalizing cg with
  | nil =>
    obtain ⟨-, rfl⟩ := Outcome.val.inj hrun
    exact h
  | cons s before ih =>
    obtain ⟨cg₁, hstep, hrest⟩ := FrameSlotsAux.cgAllocSteps_cons hrun
    exact ih (h.step hfn hstep) hrest

theorem cursor_start (fn : Func) (hmap : cg.map = []) : Cursor fn fn.allocSteps cg.preAllocStart := by
  have hmap₀ : cg.preAllocStart.map = [] := hmap
  refine .params (fun b => ⟨Nat.le_refl 8, (by decide : 8 ≤ 253), ?_, ?_, ?_, fun r hr => absurd hr List.not_mem_nil, ?_, List.nodup_nil,
    fun r hr => absurd hr List.not_mem_nil⟩) rfl
  · rw [hmap₀]
    exact fun e he => absurd he List.not_mem_nil
  · rw [hmap₀]
    exact fun e he => absurd he List.not_mem_nil
  · rw [hmap₀]
    exact fun e he => absurd he List.not_mem_nil
  · rw [hmap₀]
    exact List.Pairwise.nil

/-- In front of an instruction. -/
theorem Cursor.inst {i : Inst} {later : List Inst} {after : List AllocStep} (h : Cursor fn (.inst b i later :: after) cg) :
    b ∈ fn.blocks ∧ i ∈ b.insts ∧ ∃ t, fn.insts[t]? = some i ∧ RegsAt fn b t cg := by
  have hblock : ∀ {blocks : List Ir.Block}, AllocStep.inst b i later :: after ≠ blockSteps blocks := by
    intro blocks heq
    cases blocks with
    | nil => exact absurd heq (List.cons_ne_nil _ _)
    | cons c blocks => nomatch (List.cons.inj heq).1
  generalize hsteps : AllocStep.inst b i later :: after = all at h
  cases h with
  | @params ps cg hregs hpool =>
    cases ps with
    | nil => exact absurd hsteps hblock
    | cons p ps => nomatch (List.cons.inj hsteps).1
  | @insts b' pre rest blocks cg hb hblocks hrest hinsts hregs =>
    cases rest with
    | nil => exact absurd hsteps hblock
    | cons i' later' =>
      obtain ⟨hhead, -⟩ := List.cons.inj hsteps
      obtain ⟨rfl, rfl, rfl⟩ := AllocStep.inst.inj hhead
      refine ⟨hb, hrest i List.mem_cons_self, pre.length, ?_, hregs⟩
      rw [hinsts, List.getElem?_append_right (Nat.le_refl _), Nat.sub_self]
      rfl

end

end CronoVM
