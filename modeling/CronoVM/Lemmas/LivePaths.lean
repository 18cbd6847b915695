import CronoVM.Lemmas.Liveness
import CronoVM.Lemmas.RuntimeCall
import CronoVM.Theorems.Registers

/-!
# Live registers and paths

The registers in the sets that the passes find are those that are read on a path before they are written, and what is noted for a call is what
is read on a path after it.
-/

namespace CronoVM

open Checked Ir

variable {cg : Cg} {fn : Func}

/-- The function with its values by their bits. -/
def bitGraph (cg : Cg) (fn : Func) : Flow.Graph Point Move Nat := fn.graph.image fun v => cg.spillBitOf (.loc v)

/-! ## Blocks by their index -/

theorem blockIndex_eq_some (hfn : fn.Ssa) {id si : Nat} :
    fn.blockIndex id = some si ↔ ∃ sb, fn.blocks[si]? = some sb ∧ sb.id = id := by
  unfold Func.blockIndex
  rw [List.findIdx?_eq_some_iff_getElem]
  constructor
  · rintro ⟨hlt, hid, -⟩
    exact ⟨fn.blocks[si], List.getElem?_eq_getElem hlt, eq_of_beq hid⟩
  · rintro ⟨sb, hsb, rfl⟩
    obtain ⟨hlt, rfl⟩ := List.getElem?_eq_some_iff.mp hsb
    refine ⟨hlt, beq_self_eq_true _, fun j hj hid => ?_⟩
    have hinj := (List.getElem?_inj (i := j) (j := si) (by rw [List.length_map]; omega) hfn.blockIds).mp (by
      rw [List.getElem?_map, List.getElem?_map, List.getElem?_eq_getElem (hj.trans hlt), List.getElem?_eq_getElem hlt, Option.map_some,
        Option.map_some, eq_of_beq hid])
    omega

theorem cgSets_of {b : Nat} {bb : Ir.Block} (hb : fn.blocks[b]? = some bb) : cgSets cg fn b = cgBlockDefUse cg fn bb (b == 0) := by
  unfold cgSets
  rw [hb]

theorem test_phiDef_of (hfn : fn.Ssa) {b : Nat} {bb : Ir.Block} (hb : fn.blocks[b]? = some bb) (k : Nat) :
    (cgSets cg fn b).phiDef.test k = true ↔ ∃ phi ∈ bb.phis, cg.spillBitOf (.loc phi.result) = some k := by
  rw [cgSets_of hb, test_phiDef]
  simp only [hfn.mem_phis (List.mem_of_getElem? hb), and_assoc]

/-- What an edge writes. -/
theorem defs_edge (pred : Ir.Block) {succ : Ir.Block} {k : Nat} :
    (bitGraph cg fn).defs (.edge pred succ) k ↔ ∃ phi ∈ succ.phis, cg.spillBitOf (.loc phi.result) = some k := by
  constructor
  · rintro ⟨v, ⟨phi, hphi, rfl⟩, hk⟩
    exact ⟨phi, hphi, hk⟩
  · rintro ⟨phi, hphi, hk⟩
    exact ⟨phi.result, ⟨phi, hphi, rfl⟩, hk⟩

theorem uses_edge {pred succ : Ir.Block} {k : Nat} :
    (bitGraph cg fn).uses (.edge pred succ) k ↔ ∃ phi ∈ succ.phis, ∃ v, incomingFrom phi pred.id = some v ∧ cg.spillBitOf v = some k := by
  constructor
  · rintro ⟨v, ⟨phi, hphi, hin⟩, hk⟩
    exact ⟨phi, hphi, .loc v, hin, hk⟩
  · rintro ⟨phi, hphi, v, hin, hk⟩
    cases v with
    | loc l => exact ⟨l, ⟨phi, hphi, hin⟩, hk⟩
    | block id => nomatch hk
    | const c => nomatch hk

theorem defs_inst {i : Inst} {k : Nat} : (bitGraph cg fn).defs (.inst i) k ↔ cg.spillBitOf (.loc i.result) = some k := by
  constructor
  · rintro ⟨v, rfl, hk⟩
    exact hk
  · exact fun hk => ⟨i.result, rfl, hk⟩

theorem uses_inst {i : Inst} {k : Nat} : (bitGraph cg fn).uses (.inst i) k ↔ ∃ v ∈ i.operands, cg.spillBitOf v = some k := by
  constructor
  · rintro ⟨v, hv, hk⟩
    exact ⟨.loc v, hv, hk⟩
  · rintro ⟨v, hv, hk⟩
    cases v with
    | loc l => exact ⟨l, hv, hk⟩
    | block id => nomatch hk
    | const c => nomatch hk

/-! ## From the sets to paths -/

/-- Registers with a property. -/
@[irreducible] noncomputable def CgBits.ofProp (P : Nat → Prop) : CgBits :=
  open Classical in (List.range 256).foldl (fun d k => d.set? (if P k then some k else none)) .empty

theorem CgBits.test_ofProp (P : Nat → Prop) (k : Nat) : (ofProp P).test k = true ↔ k < 256 ∧ P k := by
  classical
  have hsome : ∀ x j, (if P x then some x else none) = some j ↔ P x ∧ x = j := fun x j => by
    rw [Option.ite_none_right_eq_some, Option.some_inj]
  have hfold : ∀ (l : List Nat) (d : CgBits), (∀ x ∈ l, x < 256) →
      ((l.foldl (fun d k => d.set? (if P k then some k else none)) d).test k = true ↔ d.test k = true ∨ k ∈ l ∧ P k) := by
    intro l
    induction l with
    | nil => simp
    | cons x l ih =>
      intro d hl
      obtain ⟨hx, hl⟩ := List.forall_mem_cons.mp hl
      rw [List.foldl_cons, ih _ hl, CgBits.test_set? _ _ _ (fun j hj => ((hsome x j).mp hj).2 ▸ hx), Bool.or_eq_true_iff, decide_eq_true_iff,
        hsome, List.mem_cons]
      constructor
      · rintro ((⟨hP, rfl⟩ | hd) | ⟨hk, hP⟩)
        · exact Or.inr ⟨Or.inl rfl, hP⟩
        · exact Or.inl hd
        · exact Or.inr ⟨Or.inr hk, hP⟩
      · rintro (hd | ⟨rfl | hk, hP⟩)
        · exact Or.inl (Or.inr hd)
        · exact Or.inl (Or.inl ⟨hP, rfl⟩)
        · exact Or.inr ⟨hk, hP⟩
  unfold ofProp
  refine (hfold (List.range 256) .empty fun x hx => List.mem_range.mp hx).trans ?_
  rw [test_empty]
  simp

/-- The registers that are read on paths from the ends of a block. -/
noncomputable def livePaths (cg : Cg) (fn : Func) (b : Nat) : BlockLive where
  liveIn := .ofProp fun k => ∃ bb, fn.blocks[b]? = some bb ∧ (bitGraph cg fn).Live k ⟨bb.id, 0⟩
  liveOut := .ofProp fun k => ∃ bb, fn.blocks[b]? = some bb ∧ (bitGraph cg fn).Live k ⟨bb.id, bb.body.length⟩

theorem test_livePaths (b k : Nat) :
    ((livePaths cg fn b).liveIn.test k = true ↔ k < 256 ∧ ∃ bb, fn.blocks[b]? = some bb ∧ (bitGraph cg fn).Live k ⟨bb.id, 0⟩) ∧
      ((livePaths cg fn b).liveOut.test k = true ↔
        k < 256 ∧ ∃ bb, fn.blocks[b]? = some bb ∧ (bitGraph cg fn).Live k ⟨bb.id, bb.body.length⟩) :=
  ⟨CgBits.test_ofProp _ k, CgBits.test_ofProp _ k⟩

/-- What is live in front of instructions of a block is read on a path from there. -/
theorem live_of_liveThrough {bb : Ir.Block} (hbb : bb ∈ fn.blocks) {out : CgBits}
    (hout : ∀ k, out.test k = true → (bitGraph cg fn).Live k ⟨bb.id, bb.body.length⟩) {insts : List Inst} {m : Nat}
    (hm : bb.body.drop m = insts) (hle : m ≤ bb.body.length) {k : Nat} (hk : (liveThrough cg insts out).test k = true) :
    (bitGraph cg fn).Live k ⟨bb.id, m⟩ := by
  induction insts generalizing m with
  | nil =>
    have hge : bb.body.length ≤ m := List.drop_eq_nil_iff.mp hm
    obtain rfl : m = bb.body.length := Nat.le_antisymm hle hge
    exact hout k hk
  | cons i insts ih =>
    have hlt : m < bb.body.length := by
      by_contra hge
      rw [List.drop_eq_nil_of_le (Nat.not_lt.mp hge)] at hm
      nomatch hm
    rw [List.drop_eq_getElem_cons hlt] at hm
    obtain ⟨hi, hrest⟩ := List.cons.inj hm
    have hmove : (bitGraph cg fn).move ⟨bb.id, m⟩ (.inst i) ⟨bb.id, m + 1⟩ :=
      Func.Moves.inst hbb (List.getElem?_eq_some_iff.mpr ⟨hlt, hi⟩)
    rcases (test_cgLiveBefore i _ k).mp hk with ⟨hlive, hdef⟩ | huse
    · exact .pass hmove (fun h => hdef (defs_inst.mp h)) (ih hrest hlt hlive)
    · exact .use hmove (uses_inst.mpr huse)

/-- The sets hold nothing but what is read on a path. -/
theorem live_of_sets (hfn : fn.Ssa) {live : Nat → BlockLive}
    (hleast : ∀ live', Sweeps.Closed (cgLiveCell cg fn) live' → live ≤ live') {b : Nat} {bb : Ir.Block} (hb : fn.blocks[b]? = some bb) (k : Nat) :
    ((live b).liveIn.test k = true → (bitGraph cg fn).Live k ⟨bb.id, 0⟩) ∧
      ((live b).liveOut.test k = true → (bitGraph cg fn).Live k ⟨bb.id, bb.body.length⟩) := by
  have hout : ∀ b bb k, fn.blocks[b]? = some bb → (cgNewOut cg fn (livePaths cg fn) b).test k = true →
      (bitGraph cg fn).Live k ⟨bb.id, bb.body.length⟩ := by
    intro b bb k hb hk
    obtain ⟨succ, hsucc, si, sb, hindex, hsb, hlive⟩ := (test_cgNewOut _ hb k).mp hk
    obtain ⟨sb', hsb', rfl⟩ := (blockIndex_eq_some hfn).mp hindex
    obtain rfl := Option.some.inj (hsb'.symm.trans hsb)
    have hmove : (bitGraph cg fn).move ⟨bb.id, bb.body.length⟩ (.edge bb sb') ⟨sb'.id, 0⟩ :=
      Func.Moves.edge (List.mem_of_getElem? hb) (List.mem_of_getElem? hsb) hsucc
    rcases hlive with ⟨hin, hphi⟩ | huse
    · obtain ⟨-, sb'', hsb'', hlive⟩ := (test_livePaths si k).1.mp hin
      obtain rfl := Option.some.inj (hsb''.symm.trans hsb)
      exact .pass hmove (fun h => hphi ((test_phiDef_of hfn hsb k).mpr ((defs_edge bb).mp h))) hlive
    · exact .use hmove (uses_edge.mpr huse)
  have hnone : ∀ b k, fn.blocks[b]? = none → (cgLiveCell cg fn (livePaths cg fn) b).liveIn.test k = false ∧ (cgNewOut cg fn (livePaths cg fn) b).test k = false := by
    intro b k hb
    have hnew : cgNewOut cg fn (livePaths cg fn) b = .empty := by
      unfold cgNewOut
      rw [hb]
    have hsets : (cgSets cg fn b).use = .empty := by
      unfold cgSets
      rw [hb]
    have hin : (cgLiveCell cg fn (livePaths cg fn) b).liveIn = (cgSets cg fn b).use.or ((cgNewOut cg fn (livePaths cg fn) b).andnot (cgSets cg fn b).defs) := rfl
    rw [hin, hnew, hsets]
    simp
  have hlt : ∀ {k : Nat} {c : CgBits}, c.test k = true → k < 256 := by
    intro k c hk
    by_contra hge
    rw [CgBits.test_of_ge c k (Nat.not_lt.mp hge)] at hk
    nomatch hk
  have hclosed : Sweeps.Closed (cgLiveCell cg fn) (livePaths cg fn) := by
    intro b
    cases hb : fn.blocks[b]? with
    | none =>
      refine ⟨fun k hk => ?_, fun k hk => ?_⟩
      · exact absurd ((hnone b k hb).1.symm.trans hk) Bool.false_ne_true
      · exact absurd ((hnone b k hb).2.symm.trans hk) Bool.false_ne_true
    | some bb =>
      refine ⟨fun k hk => ?_, fun k hk => ?_⟩
      · refine (test_livePaths b k).1.mpr ⟨hlt hk, bb, hb, ?_⟩
        have hin : (cgLiveCell cg fn (livePaths cg fn) b).liveIn = (cgSets cg fn b).use.or ((cgNewOut cg fn (livePaths cg fn) b).andnot (cgSets cg fn b).defs) := rfl
        rw [hin, CgBits.test_or, CgBits.test_andnot, Bool.or_eq_true_iff, Bool.and_eq_true_iff, Bool.not_eq_true'] at hk
        have hthrough : (liveThrough cg bb.body (cgNewOut cg fn (livePaths cg fn) b)).test k = true := by
          rw [test_liveThrough]
          rcases hk with huse | ⟨hnew, hdefs⟩
          · rw [cgSets_of hb] at huse
            exact Or.inl ((test_use bb _ k).mp huse).1
          · refine Or.inr ⟨hnew, fun i hi hbit => ?_⟩
            rw [cgSets_of hb] at hdefs
            have hset : (cgBlockDefUse cg fn bb (b == 0)).defs.test k = true := (test_defs bb _ k).mpr (Or.inl ⟨i, (Func.mem_body.mp hi).1, hbit⟩)
            exact absurd (hdefs.symm.trans hset) Bool.false_ne_true
        exact live_of_liveThrough (List.mem_of_getElem? hb) (hout b bb · hb) (List.drop_zero) (Nat.zero_le _) hthrough
      · exact (test_livePaths b k).2.mpr ⟨hlt hk, bb, hb, hout b bb k hb hk⟩
  have hle := hleast (livePaths cg fn) hclosed b
  constructor
  · intro hk
    obtain ⟨-, bb', hb', hlive⟩ := (test_livePaths b k).1.mp (hle.1 k hk)
    obtain rfl := Option.some.inj (hb'.symm.trans hb)
    exact hlive
  · intro hk
    obtain ⟨-, bb', hb', hlive⟩ := (test_livePaths b k).2.mp (hle.2 k hk)
    obtain rfl := Option.some.inj (hb'.symm.trans hb)
    exact hlive

/-! ## From paths to the sets -/

/-- What is live at the head of a block that is not the entry, apart from its phis, is in its set. -/
theorem liveIn_of_liveThrough {live : Nat → BlockLive} {b : Nat} {bb : Ir.Block} (hb : fn.blocks[b]? = some bb)
    (hentry : bb.id ≠ fn.entryId) (hsolves : live b = cgLiveCell cg fn live b) {k : Nat}
    (hk : (liveThrough cg bb.body (live b).liveOut).test k = true) (hphi : ¬(cgSets cg fn b).phiDef.test k = true) :
    (live b).liveIn.test k = true := by
  have hout : (live b).liveOut = cgNewOut cg fn live b := congrArg BlockLive.liveOut hsolves
  have hin : (live b).liveIn = (cgSets cg fn b).use.or ((cgNewOut cg fn live b).andnot (cgSets cg fn b).defs) :=
    congrArg BlockLive.liveIn hsolves
  have hzero : (b == 0) = false := by
    refine beq_false_of_ne fun h => hentry ?_
    subst h
    have hhead : fn.blocks.head? = some bb := (List.head?_eq_getElem? ..).trans hb
    unfold Func.entryId
    rw [hhead]
    rfl
  rw [hin, CgBits.test_or, CgBits.test_andnot, Bool.or_eq_true_iff, Bool.and_eq_true_iff, Bool.not_eq_true']
  rcases (test_liveThrough bb.body _ k).mp hk with huse | ⟨hlive, hbody⟩
  · rw [cgSets_of hb] at hphi ⊢
    exact Or.inl ((test_use bb _ k).mpr ⟨huse, hphi⟩)
  · refine Or.inr ⟨hout ▸ hlive, Bool.eq_false_of_not_eq_true fun hdef => ?_⟩
    rw [cgSets_of hb, test_defs, hzero] at hdef
    rcases hdef with ⟨i, hi, hbit⟩ | ⟨hfalse, -⟩
    · by_cases hop : i.op = .phi
      · rw [cgSets_of hb] at hphi
        exact hphi ((test_phiDef bb _ k).mpr ⟨i, hi, hop, hbit⟩)
      · exact hbody i (Func.mem_body.mpr ⟨hi, hop⟩) hbit
    · exact Bool.false_ne_true hfalse

/-- What is read on a path is in the sets. -/
theorem liveThrough_of_live (hfn : fn.Ssa) {live : Nat → BlockLive} (hsolves : ∀ b < fn.blocks.length, live b = cgLiveCell cg fn live b)
    {p : Point} {k : Nat} (h : (bitGraph cg fn).Live k p) {b : Nat} {bb : Ir.Block} (hb : fn.blocks[b]? = some bb) (hp : p.block = bb.id) :
    (liveThrough cg (bb.body.drop p.pos) (live b).liveOut).test k = true := by
  have hsame : ∀ {c : Ir.Block}, c ∈ fn.blocks → c.id = bb.id → c = bb := fun hc hid => hfn.block_of_id hc (List.mem_of_getElem? hb) hid
  -- the end of a block, by the equation for its successors
  have hend : ∀ {b : Nat} {bb succ : Ir.Block}, fn.blocks[b]? = some bb → succ ∈ fn.blocks → succ.id ∈ bb.successors →
      ((bitGraph cg fn).uses (.edge bb succ) k ∨ ¬(bitGraph cg fn).defs (.edge bb succ) k ∧
        ∀ si, fn.blocks[si]? = some succ → (liveThrough cg succ.body (live si).liveOut).test k = true) → (live b).liveOut.test k = true := by
    intro b bb succ hb hsucc hmem hcases
    obtain ⟨si, hsi⟩ := List.mem_iff_getElem?.mp hsucc
    rw [show (live b).liveOut = cgNewOut cg fn live b from
      congrArg BlockLive.liveOut (hsolves b (List.getElem?_eq_some_iff.mp hb).1), test_cgNewOut _ hb]
    refine ⟨succ.id, hmem, si, succ, (blockIndex_eq_some hfn).mpr ⟨succ, hsi, rfl⟩, hsi, ?_⟩
    rcases hcases with huse | ⟨hdef, hlive⟩
    · exact Or.inr (uses_edge.mp huse)
    · have hphi : ¬(cgSets cg fn si).phiDef.test k = true := fun hphi => hdef ((defs_edge bb).mpr ((test_phiDef_of hfn hsi k).mp hphi))
      have hentry : succ.id ≠ fn.entryId := fun hid => hfn.entry bb (List.mem_of_getElem? hb) (hid ▸ hmem)
      exact Or.inl ⟨liveIn_of_liveThrough hsi hentry (hsolves si (List.getElem?_eq_some_iff.mp hsi).1) (hlive si hsi) hphi, hphi⟩
  induction h generalizing b bb with
  | @use p p' m hmove huse =>
    cases hmove with
    | @inst c n i hc hi =>
      obtain rfl := hsame hc hp
      rw [List.drop_eq_getElem_cons (List.getElem?_eq_some_iff.mp hi).1]
      refine (test_cgLiveBefore _ _ k).mpr (Or.inr ?_)
      rw [(List.getElem?_eq_some_iff.mp hi).2]
      exact uses_inst.mp huse
    | @edge pred succ hpred hsucc hmem =>
      obtain rfl := hsame hpred hp
      rw [List.drop_length]
      exact hend hb hsucc hmem (Or.inl huse)
  | @pass p p' m hmove hdef hlive ih =>
    cases hmove with
    | @inst c n i hc hi =>
      obtain rfl := hsame hc hp
      have hnext := ih hb rfl (fun hc hid => hsame hc hid)
      rw [List.drop_eq_getElem_cons (List.getElem?_eq_some_iff.mp hi).1]
      refine (test_cgLiveBefore _ _ k).mpr (Or.inl ⟨hnext, ?_⟩)
      rw [(List.getElem?_eq_some_iff.mp hi).2]
      exact fun h => hdef (defs_inst.mpr h)
    | @edge pred succ hpred hsucc hmem =>
      obtain rfl := hsame hpred hp
      rw [List.drop_length]
      refine hend hb hsucc hmem (Or.inr ⟨hdef, fun si hsi => ?_⟩)
      exact ih hsi rfl (fun hc hid => hfn.block_of_id hc hsucc hid)

/-- What the way back through a block finds in front of an instruction is what is read on a path from there. -/
theorem test_liveThrough_iff (hfn : fn.Ssa) {fuel : Nat} {live : Nat → BlockLive} (h : cgComputeLiveness cg fn fuel = some live) {b : Nat}
    {bb : Ir.Block} (hb : fn.blocks[b]? = some bb) {m : Nat} (hm : m ≤ bb.body.length) (k : Nat) :
    (liveThrough cg (bb.body.drop m) (live b).liveOut).test k = true ↔ (bitGraph cg fn).Live k ⟨bb.id, m⟩ := by
  obtain ⟨hsolves, hleast⟩ := cgComputeLiveness_least h
  refine ⟨live_of_liveThrough (List.mem_of_getElem? hb) (fun k => (live_of_sets hfn hleast hb k).2) rfl hm, fun hlive => ?_⟩
  exact liveThrough_of_live hfn hsolves hlive hb rfl

/-! ## What is saved around a call

The set noted for a call holds the registers that are read on a path after it; each has a slot of its own. -/

variable {live : Nat → BlockLive}

/-- The way back through a block to an instruction. -/
def liveBehind (cg : Cg) (insts : List Inst) (live : CgBits) : CgBits :=
  insts.foldl (fun live i => if i.op = .phi then live else cgLiveBefore cg i live) live

/-- An entry is for a spill point, with what is live behind it. -/
theorem mem_cgCallLiveouts {insts : List Inst} {out : CgBits} {c : Nat × CgBits} :
    c ∈ cgCallLiveouts cg fn insts out ↔ ∃ behind i earlier, insts = behind ++ i :: earlier ∧ i.op ≠ .phi ∧ fn.isSpillPoint i = true ∧
      c = (i.id, liveBehind cg behind out) := by
  induction insts generalizing out with
  | nil =>
    refine ⟨fun h => absurd h List.not_mem_nil, ?_⟩
    rintro ⟨behind, i, earlier, h, -⟩
    exact absurd h.symm (List.append_ne_nil_of_right_ne_nil _ (List.cons_ne_nil _ _))
  | cons j insts ih =>
    have hstep : ∀ {x : CgBits}, (∃ behind i earlier, insts = behind ++ i :: earlier ∧ i.op ≠ .phi ∧ fn.isSpillPoint i = true ∧
        c = (i.id, liveBehind cg behind x)) → x = (if j.op = .phi then out else cgLiveBefore cg j out) →
        ∃ behind i earlier, j :: insts = behind ++ i :: earlier ∧ i.op ≠ .phi ∧ fn.isSpillPoint i = true ∧
          c = (i.id, liveBehind cg behind out) := by
      rintro x ⟨behind, i, earlier, rfl, hop, hspill, rfl⟩ rfl
      exact ⟨j :: behind, i, earlier, rfl, hop, hspill, rfl⟩
    have hsplit : ∀ {behind earlier : List Inst} {i : Inst}, j :: insts = behind ++ i :: earlier →
        i = j ∧ behind = [] ∨ ∃ rest, behind = j :: rest ∧ insts = rest ++ i :: earlier := by
      intro behind earlier i h
      cases behind with
      | nil => exact Or.inl ⟨(List.cons.inj h).1.symm, rfl⟩
      | cons j' rest =>
        obtain ⟨rfl, hrest⟩ := List.cons.inj h
        exact Or.inr ⟨rest, rfl, hrest⟩
    by_cases hphi : j.op = .phi
    · have heq : cgCallLiveouts cg fn (j :: insts) out = cgCallLiveouts cg fn insts out := by rw [cgCallLiveouts, if_pos hphi]
      rw [heq, ih]
      refine ⟨fun h => hstep h (if_pos hphi).symm, ?_⟩
      rintro ⟨behind, i, earlier, h, hop, hspill, rfl⟩
      rcases hsplit h with ⟨rfl, -⟩ | ⟨rest, rfl, hrest⟩
      · exact absurd hphi hop
      · refine ⟨rest, i, earlier, hrest, hop, hspill, ?_⟩
        unfold liveBehind
        rw [List.foldl_cons, if_pos hphi]
    · have hbehind : ∀ rest : List Inst, liveBehind cg (j :: rest) out = liveBehind cg rest (cgLiveBefore cg j out) := by
        intro rest
        unfold liveBehind
        rw [List.foldl_cons, if_neg hphi]
      by_cases hpoint : fn.isSpillPoint j = true
      · have heq : cgCallLiveouts cg fn (j :: insts) out = (j.id, out) :: cgCallLiveouts cg fn insts (cgLiveBefore cg j out) := by
          rw [cgCallLiveouts, if_neg hphi, if_pos hpoint]
        rw [heq, List.mem_cons, ih]
        constructor
        · rintro (rfl | h)
          · exact ⟨[], j, insts, rfl, hphi, hpoint, rfl⟩
          · exact hstep h (if_neg hphi).symm
        · rintro ⟨behind, i, earlier, h, hop, hspill, rfl⟩
          rcases hsplit h with ⟨rfl, rfl⟩ | ⟨rest, rfl, hrest⟩
          · exact Or.inl rfl
          · exact Or.inr ⟨rest, i, earlier, hrest, hop, hspill, by rw [hbehind]⟩
      · have heq : cgCallLiveouts cg fn (j :: insts) out = cgCallLiveouts cg fn insts (cgLiveBefore cg j out) := by
          rw [cgCallLiveouts, if_neg hphi, if_neg hpoint]
        rw [heq, ih]
        refine ⟨fun h => hstep h (if_neg hphi).symm, ?_⟩
        rintro ⟨behind, i, earlier, h, hop, hspill, rfl⟩
        rcases hsplit h with ⟨rfl, -⟩ | ⟨rest, rfl, hrest⟩
        · exact absurd hspill hpoint
        · exact ⟨rest, i, earlier, hrest, hop, hspill, by rw [hbehind]⟩

theorem liveBehind_reverse (insts : List Inst) (out : CgBits) :
    liveBehind cg insts.reverse out = liveThrough cg (insts.filter fun i => i.op ≠ .phi) out := by
  unfold liveBehind liveThrough
  rw [List.foldl_reverse, List.foldr_filter]
  refine congrArg (fun g => insts.foldr g out) (funext fun i => funext fun live => ?_)
  by_cases hphi : i.op = .phi
  · rw [if_pos hphi, if_neg (by simp [hphi])]
  · rw [if_neg hphi, if_pos (by simp [hphi])]

/-- The body of a block around an instruction. -/
theorem body_of_insts {bb : Ir.Block} {before after : List Inst} {i : Inst} (hinsts : bb.insts = before ++ i :: after) (hop : i.op ≠ .phi) :
    bb.body[(before.filter fun i => i.op ≠ .phi).length]? = some i ∧
      bb.body.drop ((before.filter fun i => i.op ≠ .phi).length + 1) = after.filter fun i => i.op ≠ .phi := by
  have hbody : bb.body = (before.filter fun i => i.op ≠ .phi) ++ i :: after.filter fun i => i.op ≠ .phi := by
    unfold Ir.Block.body
    rw [hinsts, List.filter_append, List.filter_cons_of_pos (by simp [hop])]
  rw [hbody]
  refine ⟨?_, ?_⟩
  · rw [List.getElem?_append_right (Nat.le_refl _), Nat.sub_self]
    rfl
  · rw [List.drop_append, List.drop_eq_nil_of_le (Nat.le_succ _), Nat.add_sub_cancel_left, List.nil_append]
    rfl

/-- The entries of the array: one for each spill point, with what the way back through its block finds behind it. -/
theorem mem_cgComputeCallLiveouts (hfn : fn.Ssa) {c : Nat × CgBits} : c ∈ cgComputeCallLiveouts cg fn live ↔
    ∃ (b : Nat) (bb : Ir.Block) (m : Nat) (i : Inst), fn.blocks[b]? = some bb ∧ bb.body[m]? = some i ∧ fn.isSpillPoint i = true ∧
      c = (i.id, liveThrough cg (bb.body.drop (m + 1)) (live b).liveOut) := by
  unfold cgComputeCallLiveouts
  simp only [List.mem_flatMap, Prod.exists, List.mem_zipIdx_iff_getElem?]
  constructor
  · rintro ⟨bb, b, hb, hc⟩
    obtain ⟨behind, i, earlier, hsplit, hop, hspill, rfl⟩ := mem_cgCallLiveouts.mp hc
    have hinsts : bb.insts = earlier.reverse ++ i :: behind.reverse := by
      rw [← List.reverse_reverse bb.insts, hsplit]
      simp
    obtain ⟨hi, hdrop⟩ := body_of_insts hinsts hop
    refine ⟨b, bb, _, i, hb, hi, hspill, ?_⟩
    rw [hdrop, ← liveBehind_reverse, List.reverse_reverse]
  · rintro ⟨b, bb, m, i, hb, hi, hspill, rfl⟩
    have hbb := List.mem_of_getElem? hb
    obtain ⟨hmem, hop⟩ := Func.mem_body.mp (List.mem_of_getElem? hi)
    obtain ⟨before, after, hinsts⟩ := List.append_of_mem hmem
    obtain ⟨hi', hdrop⟩ := body_of_insts hinsts hop
    obtain ⟨-, rfl⟩ := hfn.point_eq hbb hbb hi hi' rfl
    refine ⟨bb, b, hb, mem_cgCallLiveouts.mpr ⟨after.reverse, i, before.reverse, ?_, hop, hspill, ?_⟩⟩
    · rw [hinsts]
      simp
    · rw [hdrop, liveBehind_reverse]

/-! ## The set of a call -/

/-- What the passes note for a spill point is what is read on a path after it. -/
theorem test_cgCallSpillSet (hfn : fn.Ssa) {fuel : Nat} (h : cgComputeLiveness cg fn fuel = some live) {bb : Ir.Block} (hbb : bb ∈ fn.blocks)
    {m : Nat} {i : Inst} (hi : bb.body[m]? = some i) (hspill : fn.isSpillPoint i = true) (k : Nat) :
    (cgCallSpillSet cg fn (cgComputeCallLiveouts cg fn live) i).test k = true ↔
      (bitGraph cg fn).Live k ⟨bb.id, m + 1⟩ ∧ cg.spillBitOf (.loc i.result) ≠ some k := by
  obtain ⟨b, hb⟩ := List.mem_iff_getElem?.mp hbb
  have hentry : (i.id, liveThrough cg (bb.body.drop (m + 1)) (live b).liveOut) ∈ cgComputeCallLiveouts cg fn live :=
    (mem_cgComputeCallLiveouts hfn).mpr ⟨b, bb, m, i, hb, hi, hspill, rfl⟩
  have hfound : cgLookupCallLive (cgComputeCallLiveouts cg fn live) i = some (liveThrough cg (bb.body.drop (m + 1)) (live b).liveOut) := by
    unfold cgLookupCallLive
    cases hfind : (cgComputeCallLiveouts cg fn live).find? fun c => c.1 == i.id with
    | none => exact absurd (beq_self_eq_true i.id) (List.find?_eq_none.mp hfind _ hentry)
    | some c =>
      obtain ⟨b', bb', m', i', hb', hi', -, rfl⟩ := (mem_cgComputeCallLiveouts hfn).mp (List.mem_of_find?_eq_some hfind)
      have hid : i'.id = i.id := eq_of_beq (List.find?_some (p := fun c : Nat × CgBits => c.1 == i.id) hfind)
      obtain ⟨rfl, rfl⟩ := hfn.point_eq (List.mem_of_getElem? hb') hbb hi' hi (congrArg Local.inst hid)
      have hbi := (blockIndex_eq_some hfn).mpr ⟨bb', hb, rfl⟩
      obtain rfl := Option.some.inj (hbi.symm.trans ((blockIndex_eq_some hfn).mpr ⟨bb', hb', rfl⟩))
      rfl
  unfold cgCallSpillSet
  rw [hfound, Option.getD_some, CgBits.test_clearBit? _ _ _ (fun k => Cg.spillBitOf_lt), Bool.and_eq_true_iff, decide_eq_true_iff, and_comm,
    test_liveThrough_iff hfn h hb (List.getElem?_eq_some_iff.mp hi).1]

theorem test_cgEverSpilled (callLives : List (Nat × CgBits)) (k : Nat) : (cgEverSpilled cg fn callLives).test k = true ↔
    (∃ c ∈ callLives, c.2.test k = true) ∨ ∃ i ∈ fn.insts, i.op = .invoke ∧ ∃ v ∈ i.operands, cg.spillBitOf v = some k := by
  have hinvokes : ∀ (insts : List Inst) (d : CgBits), (insts.foldl (fun ever i =>
      if i.op = .invoke then i.operands.foldl (fun ever v => ever.set? (cg.spillBitOf v)) ever else ever) d).test k = true ↔
      d.test k = true ∨ ∃ i ∈ insts, i.op = .invoke ∧ ∃ v ∈ i.operands, cg.spillBitOf v = some k := by
    intro insts
    induction insts with
    | nil => simp
    | cons j insts ih =>
      intro d
      rw [List.foldl_cons, ih]
      simp only [List.mem_cons, exists_eq_or_imp, ← or_assoc]
      refine or_congr_left ?_
      by_cases hop : j.op = .invoke
      · rw [if_pos hop, test_foldl_set? _ (fun v k => Cg.spillBitOf_lt)]
        simp [hop]
      · rw [if_neg hop]
        simp [hop]
  have hcalls : ∀ (cs : List (Nat × CgBits)) (d : CgBits), (cs.foldl (fun ever c => ever.or c.2) d).test k = true ↔
      d.test k = true ∨ ∃ c ∈ cs, c.2.test k = true := by
    intro cs
    induction cs with
    | nil => simp
    | cons c cs ih =>
      intro d
      rw [List.foldl_cons, ih, CgBits.test_or, Bool.or_eq_true_iff, or_assoc]
      simp only [List.mem_cons, exists_eq_or_imp]
  unfold cgEverSpilled
  dsimp only
  rw [hinvokes, hcalls, CgBits.test_empty]
  simp

/-- Every set is part of `ever_spilled`. -/
theorem everSpilled_of_callSpillSet {callLives : List (Nat × CgBits)} {i : Inst} {k : Nat}
    (h : (cgCallSpillSet cg fn callLives i).test k = true) : (cgEverSpilled cg fn callLives).test k = true := by
  unfold cgCallSpillSet at h
  rw [CgBits.test_clearBit? _ _ _ (fun k => Cg.spillBitOf_lt), Bool.and_eq_true_iff] at h
  have htest := h.2
  cases hfind : cgLookupCallLive callLives i with
  | none =>
    rw [hfind, Option.getD_none] at htest
    exact htest
  | some set =>
    rw [hfind, Option.getD_some] at htest
    obtain ⟨c, hc, rfl⟩ := Option.map_eq_some_iff.mp hfind
    exact (test_cgEverSpilled callLives k).mpr (Or.inl ⟨c, List.mem_of_find?_eq_some hc, htest⟩)

/-- Two registers have two slots. -/
theorem slotOf_inj (info : CallInfo) {k k' slot : Nat} (h : info.slotOf k = some slot) (h' : info.slotOf k' = some slot) : k = k' := by
  have hcount : ∀ {k slot : Nat}, info.slotOf k = some slot → slot = (List.range k).countP info.everSpilled := fun hk =>
    (Option.some.inj (Option.ite_none_right_eq_some.mp hk).2).symm
  rcases Nat.lt_trichotomy k k' with hlt | heq | hlt
  · have hless := slotOf_lt info hlt h
    rw [← hcount h'] at hless
    exact absurd hless (Nat.lt_irrefl _)
  · exact heq
  · have hless := slotOf_lt info hlt h'
    rw [← hcount h] at hless
    exact absurd hless (Nat.lt_irrefl _)

end CronoVM
