import CronoVM.Lemmas.ControlFlow
import CronoVM.Lib.DataFlow
import CronoVM.Translator.Liveness
import Mathlib.Data.Finset.Card
import Mathlib.Order.Monotone.Basic

/-!
# The fixed point of the liveness

A set of registers is its members, and no chain of sets has more than 257. So the passes over the blocks end, and the registers they find
live are those that are read on a path before they are written.
-/

namespace CronoVM

open Checked Ir

namespace CgBits

variable (a b : CgBits) (i j : Nat) (bit : Option Nat)

/-! ## Members -/

theorem word_of_getElem (h : i / 64 < 4) : b.word i = b.w[i / 64] := by
  unfold word
  rw [Vector.getElem?_eq_getElem h, Option.getD_some]

/-- There are 256 bits. -/
theorem test_of_ge (h : 256 ≤ i) : b.test i = false := by
  unfold test word
  rw [Vector.getElem?_eq_none (by omega)]
  exact BitVec.getLsbD_zero

@[simp] theorem test_empty : empty.test i = false := by
  by_cases h : i / 64 < 4
  · unfold test
    rw [word_of_getElem _ _ h]
    simp [empty]
  · exact test_of_ge _ _ (by omega)

theorem word_or : (a.or b).word i = a.word i ||| b.word i := by
  by_cases h : i / 64 < 4
  · rw [word_of_getElem _ _ h, word_of_getElem _ _ h, word_of_getElem _ _ h]
    simp [CgBits.or]
  · unfold word
    rw [Vector.getElem?_eq_none (by omega), Vector.getElem?_eq_none (by omega), Vector.getElem?_eq_none (by omega)]
    rfl

theorem word_andnot : (a.andnot b).word i = a.word i &&& ~~~b.word i := by
  by_cases h : i / 64 < 4
  · rw [word_of_getElem _ _ h, word_of_getElem _ _ h, word_of_getElem _ _ h]
    simp [CgBits.andnot]
  · unfold word
    rw [Vector.getElem?_eq_none (by omega), Vector.getElem?_eq_none (by omega), Vector.getElem?_eq_none (by omega)]
    simp

/-- Union, bit by bit. -/
@[simp] theorem test_or : (a.or b).test i = (a.test i || b.test i) := by
  unfold test
  rw [word_or, BitVec.getLsbD_or]

/-- Difference, bit by bit. -/
@[simp] theorem test_andnot : (a.andnot b).test i = (a.test i && !b.test i) := by
  have hlt : i % 64 < 64 := Nat.mod_lt _ (by decide)
  unfold test
  rw [word_andnot, BitVec.getLsbD_and, BitVec.getLsbD_not]
  simp [hlt]

/-- One word is replaced. -/
theorem word_replaced (x : BitVec 64) (hi : i < 256) :
    (⟨b.w.setIfInBounds (i / 64) x⟩ : CgBits).word j = if j / 64 = i / 64 then x else b.word j := by
  have hi' : i / 64 < 4 := by omega
  unfold word
  rw [Vector.getElem?_setIfInBounds]
  by_cases hj : j / 64 = i / 64
  · rw [if_pos hj.symm, if_pos hj, if_pos hi', Option.getD_some]
  · rw [if_neg (Ne.symm hj), if_neg hj]

/-- A bit that is set, and the others. -/
theorem test_set (hi : i < 256) : (b.set i).test j = (decide (j = i) || b.test j) := by
  have hlt : i % 64 < 64 := Nat.mod_lt _ (by decide)
  unfold test set
  rw [word_replaced _ _ _ _ hi]
  by_cases hj : j / 64 = i / 64
  · have hword : b.word i = b.word j := by rw [word, word, hj]
    have hbit : (i % 64 = j % 64) ↔ j = i := by omega
    rw [if_pos hj, BitVec.getLsbD_or, BitVec.getLsbD_twoPow, hword, Bool.or_comm]
    simp [hlt, hbit]
  · rw [if_neg hj, decide_eq_false (fun hij => hj (by rw [hij])), Bool.false_or]

/-- A bit that is cleared, and the others. -/
theorem test_clearBit (hi : i < 256) : (b.clearBit i).test j = (decide (j ≠ i) && b.test j) := by
  have hlt : i % 64 < 64 := Nat.mod_lt _ (by decide)
  have hlt' : j % 64 < 64 := Nat.mod_lt _ (by decide)
  unfold test clearBit
  rw [word_replaced _ _ _ _ hi]
  by_cases hj : j / 64 = i / 64
  · have hword : b.word i = b.word j := by rw [word, word, hj]
    have hbit : (i % 64 = j % 64) ↔ j = i := by omega
    rw [if_pos hj, BitVec.getLsbD_and, BitVec.getLsbD_not, BitVec.getLsbD_twoPow, hword, Bool.and_comm]
    simp [hlt, hlt', hbit]
  · have hij : j ≠ i := fun hij => hj (by rw [hij])
    rw [if_neg hj, decide_eq_true hij, Bool.true_and]

/-- The bit of a value that has one. -/
theorem test_set? (hk : ∀ k, bit = some k → k < 256) : (b.set? bit).test j = (decide (bit = some j) || b.test j) := by
  cases bit with
  | none => simp [set?]
  | some k =>
    have htest := test_set b k j (hk k rfl)
    rw [set?, Option.elim_some, htest]
    simp [eq_comm]

theorem test_clearBit? (hk : ∀ k, bit = some k → k < 256) : (b.clearBit? bit).test j = (decide (bit ≠ some j) && b.test j) := by
  cases bit with
  | none => simp [clearBit?]
  | some k =>
    have htest := test_clearBit b k j (hk k rfl)
    rw [clearBit?, Option.elim_some, htest]
    simp [eq_comm]

variable {a b}

/-- A set is its members. -/
theorem ext_test (h : ∀ k, a.test k = b.test k) : a = b := by
  have hw : a.w = b.w := by
    refine Vector.ext fun n hn => BitVec.eq_of_getLsbD_eq fun m hm => ?_
    have hk := h (64 * n + m)
    unfold test at hk
    have hdiv : (64 * n + m) / 64 = n := by omega
    have hmod : (64 * n + m) % 64 = m := by omega
    rw [word_of_getElem _ _ (by omega), word_of_getElem _ _ (by omega), hmod] at hk
    simpa only [hdiv] using hk
  cases a
  cases b
  exact congrArg CgBits.mk hw

/-! ## Order -/

instance : LE CgBits := ⟨fun a b => ∀ k, a.test k = true → b.test k = true⟩

instance : PartialOrder CgBits where
  le_refl _ _ h := h
  le_trans _ _ _ hab hbc k h := hbc k (hab k h)
  le_antisymm _ _ hab hba := ext_test fun k => Bool.eq_iff_iff.mpr ⟨hab k, hba k⟩

/-- The number of members. -/
def card (a : CgBits) : Nat := ((Finset.range 256).filter fun k => a.test k = true).card

/-- A set has at most 256 bits. -/
theorem card_le (a : CgBits) : a.card ≤ 256 := (Finset.card_filter_le _ _).trans_eq (Finset.card_range 256)

/-- A larger set has more. -/
theorem card_strictMono : StrictMono card := by
  intro a b hab
  obtain ⟨hle, hne⟩ := lt_iff_le_and_ne.mp hab
  refine Finset.card_lt_card (Finset.ssubset_iff_subset_ne.mpr ⟨fun k hk => ?_, fun heq => hne (ext_test fun k => ?_)⟩)
  · obtain ⟨hrange, htest⟩ := Finset.mem_filter.mp hk
    exact Finset.mem_filter.mpr ⟨hrange, hle k htest⟩
  · by_cases hk : k < 256
    · have hiff := Finset.ext_iff.mp heq k
      simp only [Finset.mem_filter, Finset.mem_range, hk, true_and] at hiff
      exact Bool.eq_iff_iff.mpr hiff
    · rw [test_of_ge a k (Nat.not_lt.mp hk), test_of_ge b k (Nat.not_lt.mp hk)]

theorem empty_le (a : CgBits) : empty ≤ a := fun k h => by
  rw [test_empty] at h
  exact absurd h Bool.false_ne_true

/-- Union is monotone in both sets. -/
theorem or_mono {a' b' : CgBits} (ha : a ≤ a') (hb : b ≤ b') : a.or b ≤ a'.or b' := by
  intro k h
  rw [test_or, Bool.or_eq_true_iff] at h ⊢
  exact h.imp (ha k) (hb k)

/-- Difference in the first. -/
theorem andnot_mono {a' : CgBits} (ha : a ≤ a') : a.andnot b ≤ a'.andnot b := by
  intro k h
  rw [test_andnot, Bool.and_eq_true_iff] at h ⊢
  exact ⟨ha k h.1, h.2⟩

end CgBits

variable {cg : Cg} {fn : Func}

/-! ## Members of the sets -/

/-- The bit of a value is one of the set. -/
theorem Cg.spillBitOf_lt {v : Val} {k : Nat} (h : cg.spillBitOf v = some k) : k < 256 := by
  unfold Cg.spillBitOf at h
  split at h
  · nomatch h
  · rename_i home _
    have hbyte := home.reg.isLt
    obtain ⟨-, h⟩ := Option.ite_none_left_eq_some.mp h
    obtain ⟨-, h⟩ := Option.ite_none_left_eq_some.mp h
    obtain rfl := Option.some.inj h
    omega

/-- The bits of a list of values. -/
theorem test_foldl_set? {α : Type} (g : α → Option Nat) (hg : ∀ x k, g x = some k → k < 256) (l : List α) (d : CgBits) (k : Nat) :
    (l.foldl (fun d x => d.set? (g x)) d).test k = true ↔ d.test k = true ∨ ∃ x ∈ l, g x = some k := by
  induction l generalizing d with
  | nil => simp
  | cons x l ih =>
    rw [List.foldl_cons, ih, CgBits.test_set? _ _ _ (hg x), Bool.or_eq_true_iff, decide_eq_true_iff]
    simp only [List.mem_cons, exists_eq_or_imp]
    rw [or_comm (a := g x = some k), or_assoc]

/-- In front of an instruction live is what it reads, and what is live behind it but its result. -/
theorem test_cgLiveBefore (i : Inst) (live : CgBits) (k : Nat) : (cgLiveBefore cg i live).test k = true ↔
    (live.test k = true ∧ cg.spillBitOf (.loc i.result) ≠ some k) ∨ ∃ v ∈ i.operands, cg.spillBitOf v = some k := by
  unfold cgLiveBefore
  rw [test_foldl_set? _ (fun v k => Cg.spillBitOf_lt), CgBits.test_clearBit? _ _ _ (fun k => Cg.spillBitOf_lt), Bool.and_eq_true_iff,
    decide_eq_true_iff, and_comm]

/-- The way back through instructions that are no phis. -/
def liveThrough (cg : Cg) (insts : List Inst) (live : CgBits) : CgBits := insts.foldr (cgLiveBefore cg) live

/-- What is live in front of instructions: what they read first, and what is live behind them that they do not write. -/
theorem test_liveThrough (insts : List Inst) (live : CgBits) (k : Nat) : (liveThrough cg insts live).test k = true ↔
    (liveThrough cg insts .empty).test k = true ∨ live.test k = true ∧ ∀ i ∈ insts, cg.spillBitOf (.loc i.result) ≠ some k := by
  induction insts with
  | nil => simp [liveThrough]
  | cons i insts ih =>
    have hcons : ∀ l, liveThrough cg (i :: insts) l = cgLiveBefore cg i (liveThrough cg insts l) := fun l => rfl
    rw [hcons, hcons, test_cgLiveBefore, test_cgLiveBefore, ih]
    simp only [List.forall_mem_cons]
    constructor
    · rintro (⟨hempty | ⟨hlive, hrest⟩, hi⟩ | huse)
      · exact Or.inl (Or.inl ⟨hempty, hi⟩)
      · exact Or.inr ⟨hlive, hi, hrest⟩
      · exact Or.inl (Or.inr huse)
    · rintro ((⟨hempty, hi⟩ | huse) | ⟨hlive, hi, hrest⟩)
      · exact Or.inl ⟨Or.inl hempty, hi⟩
      · exact Or.inr huse
      · exact Or.inl ⟨Or.inr ⟨hlive, hrest⟩, hi⟩

/-- The phis of a block are left out. -/
theorem foldr_body (b : Ir.Block) (live : CgBits) :
    b.insts.foldr (fun i live => if i.op = .phi then live else cgLiveBefore cg i live) live = liveThrough cg b.body live := by
  unfold liveThrough Ir.Block.body
  induction b.insts with
  | nil => rfl
  | cons i insts ih =>
    rw [List.foldr_cons, ih]
    by_cases hphi : i.op = .phi
    · rw [if_pos hphi, List.filter_cons_of_neg (by simp [hphi])]
    · rw [if_neg hphi, List.filter_cons_of_pos (by simp [hphi]), List.foldr_cons]

section sets

variable (b : Ir.Block) (isEntry : Bool) (k : Nat)

/-- The results of the phis. -/
theorem test_phiDef : (cgBlockDefUse cg fn b isEntry).phiDef.test k = true ↔
    ∃ i ∈ b.insts, i.op = .phi ∧ cg.spillBitOf (.loc i.result) = some k := by
  have hfold : ∀ (insts : List Inst) (d : CgBits),
      (insts.foldl (fun d i => if i.op = .phi then d.set? (cg.spillBitOf (.loc i.result)) else d) d).test k = true ↔
        d.test k = true ∨ ∃ i ∈ insts, i.op = .phi ∧ cg.spillBitOf (.loc i.result) = some k := by
    intro insts
    induction insts with
    | nil => simp
    | cons i insts ih =>
      intro d
      rw [List.foldl_cons, ih]
      simp only [List.mem_cons, exists_eq_or_imp]
      by_cases hphi : i.op = .phi
      · rw [if_pos hphi, CgBits.test_set? _ _ _ (fun k => Cg.spillBitOf_lt), Bool.or_eq_true_iff, decide_eq_true_iff]
        tauto
      · rw [if_neg hphi]
        tauto
  refine (hfold b.insts .empty).trans ?_
  rw [CgBits.test_empty]
  simp

/-- The results of all instructions, and in the entry block the parameters. -/
theorem test_defs : (cgBlockDefUse cg fn b isEntry).defs.test k = true ↔
    (∃ i ∈ b.insts, cg.spillBitOf (.loc i.result) = some k) ∨
      isEntry = true ∧ ∃ p < fn.params.length, cg.spillBitOf (.loc (.arg p)) = some k := by
  have hinsts := test_foldl_set? (fun i : Inst => cg.spillBitOf (.loc i.result)) (fun i k => Cg.spillBitOf_lt) b.insts .empty k
  rw [CgBits.test_empty] at hinsts
  unfold cgBlockDefUse
  dsimp only
  cases isEntry with
  | false =>
    rw [if_neg Bool.false_ne_true, hinsts]
    simp
  | true =>
    rw [if_pos rfl, test_foldl_set? (fun p : Nat => cg.spillBitOf (.loc (.arg p))) (fun p k => Cg.spillBitOf_lt), hinsts]
    simp

/-- What the block reads before it writes it. -/
theorem test_use : (cgBlockDefUse cg fn b isEntry).use.test k = true ↔
    (liveThrough cg b.body .empty).test k = true ∧ ¬(cgBlockDefUse cg fn b isEntry).phiDef.test k = true := by
  have heq : (cgBlockDefUse cg fn b isEntry).use = (liveThrough cg b.body .empty).andnot (cgBlockDefUse cg fn b isEntry).phiDef := by
    rw [← foldr_body]
    rfl
  rw [heq, CgBits.test_andnot, Bool.and_eq_true_iff, Bool.not_eq_true']
  simp

/-- What the phis of a successor read on the edge. -/
theorem test_cgOrPhiUseFromEdge (pred : Nat) (out : CgBits) : (cgOrPhiUseFromEdge cg pred b out).test k = true ↔
    out.test k = true ∨ ∃ phi ∈ b.phis, ∃ v, incomingFrom phi pred = some v ∧ cg.spillBitOf v = some k := by
  unfold cgOrPhiUseFromEdge
  rw [test_foldl_set? (fun phi : Inst => (incomingFrom phi pred).bind cg.spillBitOf)
    (fun phi k h => Cg.spillBitOf_lt (Option.bind_eq_some_iff.mp h).choose_spec.2)]
  simp only [Option.bind_eq_some_iff]

end sets

/-! ## The loop -/

/-- What a turn of the loop makes of a block. -/
def cgLiveCell (cg : Cg) (fn : Func) (live : Nat → BlockLive) (b : Nat) : BlockLive :=
  let newOut := cgNewOut cg fn live b
  ⟨(cgSets cg fn b).use.or (newOut.andnot (cgSets cg fn b).defs), newOut⟩

instance : LE BlockLive := ⟨fun x y => x.liveIn ≤ y.liveIn ∧ x.liveOut ≤ y.liveOut⟩

instance : PartialOrder BlockLive where
  le_refl x := ⟨le_refl x.liveIn, le_refl x.liveOut⟩
  le_trans _ _ _ hxy hyz := ⟨hxy.1.trans hyz.1, hxy.2.trans hyz.2⟩
  le_antisymm x y hxy hyx := by
    cases x
    cases y
    exact congrArg₂ BlockLive.mk (le_antisymm hxy.1 hyx.1) (le_antisymm hxy.2 hyx.2)

/-- The registers of the two sets of a block. -/
def BlockLive.rank (x : BlockLive) : Nat := x.liveIn.card + x.liveOut.card

/-- The sets of a block can grow 512 times. -/
theorem BlockLive.rank_le (x : BlockLive) : x.rank ≤ 512 := by
  have hin := x.liveIn.card_le
  have hout := x.liveOut.card_le
  unfold BlockLive.rank
  omega

/-- Each change makes the rank larger. -/
theorem BlockLive.rank_strictMono : StrictMono BlockLive.rank := by
  intro x y hxy
  obtain ⟨⟨hin, hout⟩, hne⟩ := lt_iff_le_and_ne.mp hxy
  have hin' := CgBits.card_strictMono.monotone hin
  have hout' := CgBits.card_strictMono.monotone hout
  unfold BlockLive.rank
  by_cases heq : x.liveIn = y.liveIn
  · have hlt : x.liveOut < y.liveOut := lt_of_le_of_ne hout fun h => hne (by cases x; cases y; exact congrArg₂ BlockLive.mk heq h)
    have hcard := CgBits.card_strictMono hlt
    omega
  · have hcard := CgBits.card_strictMono (lt_of_le_of_ne hin heq)
    omega

/-- What is live at the end of a block, from its successors. -/
theorem test_cgNewOut (live : Nat → BlockLive) {b : Nat} {bb : Ir.Block} (hb : fn.blocks[b]? = some bb) (k : Nat) :
    (cgNewOut cg fn live b).test k = true ↔ ∃ succ ∈ bb.successors, ∃ si sb, fn.blockIndex succ = some si ∧ fn.blocks[si]? = some sb ∧
      ((live si).liveIn.test k = true ∧ ¬(cgSets cg fn si).phiDef.test k = true ∨
        ∃ phi ∈ sb.phis, ∃ v, incomingFrom phi bb.id = some v ∧ cg.spillBitOf v = some k) := by
  have hfold : ∀ (succs : List Nat) (out : CgBits), (succs.foldl (cgEdgeOut cg fn live bb.id) out).test k = true ↔
      out.test k = true ∨ ∃ succ ∈ succs, ∃ si sb, fn.blockIndex succ = some si ∧ fn.blocks[si]? = some sb ∧
        ((live si).liveIn.test k = true ∧ ¬(cgSets cg fn si).phiDef.test k = true ∨
          ∃ phi ∈ sb.phis, ∃ v, incomingFrom phi bb.id = some v ∧ cg.spillBitOf v = some k) := by
    intro succs
    induction succs with
    | nil => simp
    | cons succ succs ih =>
      intro out
      rw [List.foldl_cons, ih]
      simp only [List.mem_cons, exists_eq_or_imp, ← or_assoc]
      refine or_congr_left ?_
      unfold cgEdgeOut
      cases hindex : fn.blockIndex succ with
      | none => simp
      | some si =>
        dsimp only
        cases hsb : fn.blocks[si]? with
        | none => simp [hsb]
        | some sb =>
          dsimp only
          rw [test_cgOrPhiUseFromEdge, CgBits.test_or, CgBits.test_andnot]
          simp [hsb, or_assoc]
  unfold cgNewOut
  rw [hb]
  dsimp only
  rw [hfold, CgBits.test_empty]
  simp

/-- From larger sets a turn makes larger ones. -/
theorem cgLiveCell_mono : Monotone (cgLiveCell cg fn) := by
  intro live live' hle b
  have hout : cgNewOut cg fn live b ≤ cgNewOut cg fn live' b := by
    intro k hk
    cases hb : fn.blocks[b]? with
    | none =>
      unfold cgNewOut at hk
      rw [hb] at hk
      exact absurd ((CgBits.test_empty k).symm.trans hk) Bool.false_ne_true
    | some bb =>
      rw [test_cgNewOut _ hb] at hk ⊢
      obtain ⟨succ, hsucc, si, sb, hindex, hsb, hlive⟩ := hk
      exact ⟨succ, hsucc, si, sb, hindex, hsb, hlive.imp_left fun h => ⟨(hle si).1 k h.1, h.2⟩⟩
  exact ⟨CgBits.or_mono (le_refl _) (CgBits.andnot_mono hout), hout⟩

/-- A pass is a sweep over the blocks. -/
theorem cgLivePass_eq (bs : List Nat) (live : Nat → BlockLive) : cgLivePass cg fn bs live = Sweeps.sweep (cgLiveCell cg fn) bs live := by
  induction bs generalizing live with
  | nil => rfl
  | cons b bs ih =>
    have hvisit : cgLiveVisit cg fn live b =
        (Function.update live b (cgLiveCell cg fn live b), decide (cgLiveCell cg fn live b ≠ live b)) := by
      have hflag : ∀ x y : BlockLive, (decide (x.liveIn ≠ y.liveIn) || decide (x.liveOut ≠ y.liveOut)) = decide (x ≠ y) := by
        intro x y
        cases x
        cases y
        simp only [ne_eq, BlockLive.mk.injEq, not_and_or, Bool.decide_or]
      exact congrArg (Prod.mk _) (hflag (cgLiveCell cg fn live b) (live b))
    rw [cgLivePass, Sweeps.sweep, hvisit]
    dsimp only
    rw [ih]

/-- The loop repeats the sweep until nothing changes. -/
theorem cgLiveLoop_eq (fuel : Nat) (live : Nat → BlockLive) :
    cgLiveLoop cg fn fuel live = Sweeps.iterate (cgLiveCell cg fn) (List.range fn.blocks.length).reverse fuel live := by
  induction fuel generalizing live with
  | zero => rfl
  | succ fuel ih =>
    rw [cgLiveLoop, Sweeps.iterate, cgLivePass_eq]
    split
    · exact ih _
    · rfl

/-- From the empty sets on they only grow. -/
theorem rising_empty : Sweeps.Rising (cgLiveCell cg fn) fun _ => ⟨.empty, .empty⟩ := fun _ => ⟨CgBits.empty_le _, CgBits.empty_le _⟩

/-- The loop ends. -/
theorem cgComputeLiveness_exists (cg : Cg) (fn : Func) {fuel : Nat} (hfuel : 512 * fn.blocks.length < fuel) :
    ∃ live, cgComputeLiveness cg fn fuel = some live := by
  unfold cgComputeLiveness
  rw [cgLiveLoop_eq]
  refine Sweeps.iterate_exists cgLiveCell_mono BlockLive.rank_strictMono BlockLive.rank_le rising_empty ?_
  rw [List.length_reverse, List.length_range]
  omega

/-- What it ends with are the least sets that satisfy the equations. -/
theorem cgComputeLiveness_least {fuel : Nat} {live : Nat → BlockLive} (h : cgComputeLiveness cg fn fuel = some live) :
    (∀ b < fn.blocks.length, live b = cgLiveCell cg fn live b) ∧ ∀ live', Sweeps.Closed (cgLiveCell cg fn) live' → live ≤ live' := by
  unfold cgComputeLiveness at h
  rw [cgLiveLoop_eq] at h
  obtain ⟨hsolves, -, hleast⟩ := Sweeps.iterate_least cgLiveCell_mono rising_empty h
  refine ⟨fun b hb => (hsolves b (List.mem_reverse.mpr (List.mem_range.mpr hb))).symm, fun live' hclosed => hleast live' hclosed fun _ => ?_⟩
  exact ⟨CgBits.empty_le _, CgBits.empty_le _⟩

end CronoVM
