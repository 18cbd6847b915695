import Mathlib.Data.List.Nodup
import CronoVM.Translator.Branches

/-!
# Branch relaxation

The loop of `cg_relax_branches` ends with a pass that changes nothing, so every branch that was not relaxed reaches its target. What it
inserts is counted by `extra_at`; the place of each instruction in the new code is its old place and what was inserted before it.
-/

namespace CronoVM

open Checked Ir Finset

/-! ## The passes -/

/-- The number of words inserted before position `x`. -/
def insertedBefore (cg : CgFn) (relaxed : Nat → Bool) (x : Nat) : Nat := ∑ q ∈ range x, extraAt cg relaxed q

/-- The new place of position `x`. -/
def newPos (cg : CgFn) (relaxed : Nat → Bool) (x : Nat) : Nat := x + insertedBefore cg relaxed x

/-- What the passes keep: the tree counts the relaxed branches, and these are among the fixups of 8 bits. -/
structure RelaxInv (cg : CgFn) (s : Relax) : Prop where
  tree : Fenwick.IsTree 32 cg.code.length s.bit (extraAt cg s.relaxed)
  short : ∀ i, s.relaxed i = true → i < cg.fixups.length ∧ (cg.fixup i).bits = 8

/-- Branch `i` does not reach its target. -/
def TooFar (cg : CgFn) (relaxed : Nat → Bool) (i : Nat) : Prop :=
  let target := newPos cg relaxed (cg.offsetOf (cg.fixup i).target)
  let pcAfter := newPos cg relaxed ((cg.fixup i).instIndex + 1)
  (target : Int) - pcAfter < -128 ∨ (target : Int) - pcAfter > 127

section passes

variable {cg : CgFn} {s : Relax} {i : Nat}

theorem relaxInv_start : RelaxInv cg Relax.start := by
  refine ⟨?_, fun i h => Bool.noConfusion h⟩
  have hzero : extraAt cg (fun _ => false) = fun _ => 0 := by
    funext op
    simp [extraAt]
  exact hzero ▸ Fenwick.isTree_zero

/-- Counting with one element more. -/
theorem countP_update {l : List Nat} (hl : l.Nodup) (hi : i ∈ l) {p : Nat → Bool} (hnew : p i = false) :
    l.countP (Function.update p i true) = l.countP p + 1 := by
  induction l with
  | nil => exact absurd hi List.not_mem_nil
  | cons j l ih =>
    obtain ⟨hj, hl⟩ := List.nodup_cons.mp hl
    rw [List.countP_cons, List.countP_cons]
    by_cases hij : i = j
    · subst hij
      have hrest : l.countP (Function.update p i true) = l.countP p := by
        refine List.countP_congr fun f hf => ?_
        have hne : f ≠ i := fun he => hj (he ▸ hf)
        rw [Function.update_of_ne hne]
      rw [hrest, Function.update_self, hnew]
      simp
    · have hmem : i ∈ l := (List.mem_cons.mp hi).resolve_left hij
      rw [ih hl hmem, Function.update_of_ne (Ne.symm hij)]
      omega

/-- One more relaxed branch inserts one more word. -/
theorem extraAt_update (hi : i < cg.fixups.length) (hnew : s.relaxed i = false) :
    extraAt cg (Function.update s.relaxed i true) =
      Function.update (extraAt cg s.relaxed) (cg.fixup i).instIndex (extraAt cg s.relaxed (cg.fixup i).instIndex + 1) := by
  funext op
  unfold extraAt
  by_cases hop : op = (cg.fixup i).instIndex
  · have hfun : (fun f => Function.update s.relaxed i true f && (cg.fixup f).instIndex == op) =
        Function.update (fun f => s.relaxed f && (cg.fixup f).instIndex == op) i true := by
      funext f
      by_cases hf : f = i
      · simp [hf, hop]
      · simp [Function.update_of_ne hf]
    rw [hfun, countP_update List.nodup_range (List.mem_range.mpr hi) (by simp [hnew]), hop, Function.update_self]
  · rw [Function.update_of_ne hop]
    refine List.countP_congr fun f _ => ?_
    by_cases hf : f = i
    · simp [hf, Ne.symm hop]
    · simp [Function.update_of_ne hf]

/-- The number of relaxed branches. -/
def relaxedCount (cg : CgFn) (relaxed : Nat → Bool) : Nat := (List.range cg.fixups.length).countP relaxed

theorem relaxedCount_le (relaxed : Nat → Bool) : relaxedCount cg relaxed ≤ cg.fixups.length := by
  have hle := List.countP_le_length (p := relaxed) (l := List.range cg.fixups.length)
  rwa [List.length_range] at hle

variable (hcode : cg.code.length < 2 ^ 31) (hpos : ∀ i < cg.fixups.length, (cg.fixup i).instIndex < cg.code.length)
  (hoff : ∀ i < cg.fixups.length, cg.offsetOf (cg.fixup i).target ≤ cg.code.length)

include hcode in
theorem cgFenBelow_eq (h : RelaxInv cg s) {x : Nat} (hx : x ≤ cg.code.length) : cgFenBelow s.bit x = insertedBefore cg s.relaxed x := by
  have hlt : cg.code.length < 2 ^ 32 := Nat.lt_trans hcode (by decide)
  rw [cgFenBelow, h.tree.sum hlt hx (Nat.le_refl x), Nat.zero_add, insertedBefore]

include hcode hpos hoff

theorem relaxRel_eq (h : RelaxInv cg s) (hi : i < cg.fixups.length) :
    relaxRel cg s.bit i = (newPos cg s.relaxed (cg.offsetOf (cg.fixup i).target) : Int) - newPos cg s.relaxed ((cg.fixup i).instIndex + 1) := by
  rw [relaxRel, cgFenBelow_eq hcode h (hoff i hi), cgFenBelow_eq hcode h (hpos i hi)]
  rfl

/-- A turn relaxes branch `i`, or leaves all as it is. -/
theorem relaxTurn_cases (h : RelaxInv cg s) (hi : i < cg.fixups.length) :
    (relaxTurn cg s i = s ∧ ((cg.fixup i).bits = 8 → s.relaxed i = false → ¬TooFar cg s.relaxed i)) ∨
      ((relaxTurn cg s i).changed = true ∧ s.relaxed i = false ∧ (relaxTurn cg s i).relaxed = Function.update s.relaxed i true ∧
        RelaxInv cg (relaxTurn cg s i)) := by
  unfold relaxTurn
  by_cases hskip : (cg.fixup i).bits ≠ 8 ∨ s.relaxed i = true
  · rw [if_pos hskip]
    refine Or.inl ⟨rfl, fun hbits hoff => ?_⟩
    rcases hskip with hb | hr
    · exact absurd hbits hb
    · rw [hoff] at hr
      exact Bool.noConfusion hr
  · have hnew : s.relaxed i = false := by simpa using fun hr => hskip (Or.inr hr)
    have hbits : (cg.fixup i).bits = 8 := by
      by_contra hb
      exact hskip (Or.inl hb)
    rw [if_neg hskip, relaxRel_eq hcode hpos hoff h hi]
    split
    case isTrue hfar =>
      refine Or.inr ⟨rfl, hnew, rfl, ?_, ?_⟩
      · show Fenwick.IsTree 32 cg.code.length _ (extraAt cg (Function.update s.relaxed i true))
        rw [extraAt_update hi hnew]
        exact h.tree.add (Nat.lt_trans hcode (by decide))
      · intro j hj
        have hj : Function.update s.relaxed i true j = true := hj
        by_cases hji : j = i
        · exact ⟨hji ▸ hi, hji ▸ hbits⟩
        · exact h.short j (by rwa [Function.update_of_ne hji] at hj)
    case isFalse hfar => exact Or.inl ⟨rfl, fun _ _ => hfar⟩

/-- What the turns of a pass do, for the fixups in `l`. -/
theorem foldl_relaxTurn (l : List Nat) (hl : ∀ i ∈ l, i < cg.fixups.length) (h : RelaxInv cg s) :
    RelaxInv cg (l.foldl (relaxTurn cg) s) ∧ (s.changed = true → (l.foldl (relaxTurn cg) s).changed = true) ∧
      relaxedCount cg s.relaxed ≤ relaxedCount cg (l.foldl (relaxTurn cg) s).relaxed ∧
      (s.changed = false → (l.foldl (relaxTurn cg) s).changed = true →
        relaxedCount cg s.relaxed < relaxedCount cg (l.foldl (relaxTurn cg) s).relaxed) ∧
      ((l.foldl (relaxTurn cg) s).changed = false →
        l.foldl (relaxTurn cg) s = s ∧ ∀ i ∈ l, (cg.fixup i).bits = 8 → s.relaxed i = false → ¬TooFar cg s.relaxed i) := by
  induction l generalizing s with
  | nil =>
    refine ⟨h, id, Nat.le_refl _, fun hoff hon => ?_, fun _ => ⟨rfl, fun i hi => absurd hi List.not_mem_nil⟩⟩
    have hoff : ([].foldl (relaxTurn cg) s).changed = false := hoff
    rw [hoff] at hon
    exact Bool.noConfusion hon
  | cons i l ih =>
    have hi := hl i List.mem_cons_self
    have hl' : ∀ j ∈ l, j < cg.fixups.length := fun j hj => hl j (List.mem_cons_of_mem i hj)
    rw [List.foldl_cons]
    rcases relaxTurn_cases hcode hpos hoff h hi with ⟨hsame, hnear⟩ | ⟨hchanged, hnew, hrelaxed, hinv⟩
    · rw [hsame]
      obtain ⟨hinv, hmono, hle, hlt, hfix⟩ := ih hl' h
      refine ⟨hinv, hmono, hle, hlt, fun hoff => ⟨(hfix hoff).1, fun j hj => ?_⟩⟩
      rcases List.mem_cons.mp hj with rfl | hj
      · exact hnear
      · exact (hfix hoff).2 j hj
    · obtain ⟨hinv', hmono, hle, _, _⟩ := ih hl' hinv
      have hon := hmono hchanged
      have hcount : relaxedCount cg (relaxTurn cg s i).relaxed = relaxedCount cg s.relaxed + 1 := by
        rw [hrelaxed]
        exact countP_update List.nodup_range (List.mem_range.mpr hi) hnew
      refine ⟨hinv', fun _ => hon, by omega, fun _ _ => by omega, fun hoff => ?_⟩
      rw [hon] at hoff
      exact Bool.noConfusion hoff

/-- A pass relaxes more branches, or finds that all others reach. -/
theorem relaxPass_cases (h : RelaxInv cg s) :
    RelaxInv cg (relaxPass cg s) ∧
      (((relaxPass cg s).changed = true ∧ relaxedCount cg s.relaxed < relaxedCount cg (relaxPass cg s).relaxed) ∨
        ((relaxPass cg s).changed = false ∧ (relaxPass cg s).relaxed = s.relaxed ∧
          ∀ i < cg.fixups.length, (cg.fixup i).bits = 8 → s.relaxed i = false → ¬TooFar cg s.relaxed i)) := by
  have hstart : RelaxInv cg { s with changed := false } := ⟨h.tree, h.short⟩
  obtain ⟨hinv, _, _, hlt, hfix⟩ := foldl_relaxTurn hcode hpos hoff (List.range cg.fixups.length) (fun i hi => List.mem_range.mp hi) hstart
  refine ⟨hinv, ?_⟩
  cases hch : (relaxPass cg s).changed with
  | true => exact Or.inl ⟨rfl, hlt rfl hch⟩
  | false =>
    obtain ⟨hsame, hnear⟩ := hfix hch
    exact Or.inr ⟨rfl, by rw [relaxPass, hsame], fun i hi => hnear i (List.mem_range.mpr hi)⟩

/-- The loop ends with a pass that changes nothing, after at most as many passes that do as there are fixups left. -/
theorem relaxPasses_fixpoint {k : Nat} (hk : cg.fixups.length < k + relaxedCount cg s.relaxed) (h : RelaxInv cg s) :
    ∃ j < k, relaxPasses cg k s = (relaxPass cg)^[j + 1] s ∧ (relaxPass cg ((relaxPass cg)^[j] s)).changed = false ∧
      RelaxInv cg (relaxPasses cg k s) ∧ ∀ i < cg.fixups.length, (cg.fixup i).bits = 8 → (relaxPasses cg k s).relaxed i = false →
        ¬TooFar cg (relaxPasses cg k s).relaxed i := by
  induction k generalizing s with
  | zero =>
    have hle := @relaxedCount_le cg s.relaxed
    omega
  | succ k ih =>
    obtain ⟨hinv, hcase⟩ := relaxPass_cases hcode hpos hoff h
    unfold relaxPasses
    rcases hcase with ⟨hchanged, hlt⟩ | ⟨hsame, hrelaxed, hnear⟩
    · rw [if_pos hchanged]
      obtain ⟨j, hj, heq, hlast, hrest⟩ := ih (by omega) hinv
      refine ⟨j + 1, by omega, ?_, ?_, hrest⟩
      · rw [heq, Function.iterate_succ_apply]
        rfl
      · rw [Function.iterate_succ_apply]
        exact hlast
    · rw [if_neg (by simp [hsame])]
      refine ⟨0, Nat.succ_pos k, rfl, hsame, hinv, ?_⟩
      rw [hrelaxed]
      exact hnear

end passes

/-! ## The new code -/

/-- The rebuild after the first `n` instructions. -/
theorem rebuild_foldl (code : List Word) (extra : Nat → Nat) {n : Nat} (hn : n ≤ code.length) :
    let r := (List.range n).foldl (rebuildTurn code extra) { newCode := [], newPosOf := [] }
    r.newCode.length = n + ∑ q ∈ range n, extra q ∧ r.newPosOf.length = n ∧
      (∀ op < n, r.newPosOf[op]? = some (op + ∑ q ∈ range op, extra q)) ∧
      (∀ op < n, r.newCode[op + ∑ q ∈ range op, extra q]? = code[op]?) ∧
      ∀ op < n, ∀ e < extra op, r.newCode[op + ∑ q ∈ range op, extra q + 1 + e]? = some (encI24 .jmp 0) := by
  induction n with
  | zero => simp
  | succ n ih =>
    obtain ⟨hlen, hplen, hpos, hold, hjmp⟩ := ih (Nat.le_of_succ_le hn)
    simp only [List.range_succ, List.foldl_append, List.foldl_cons, List.foldl_nil]
    generalize (List.range n).foldl (rebuildTurn code extra) { newCode := [], newPosOf := [] } = r at hlen hplen hpos hold hjmp ⊢
    have hcode : code.getD n 0 = code[n] := by
      rw [List.getD_eq_getElem?_getD, List.getElem?_eq_getElem hn, Option.getD_some]
    have hbefore : ∀ op < n, op + ∑ q ∈ range op, extra q + extra op < n + ∑ q ∈ range n, extra q := by
      intro op hop
      have hmono : ∑ q ∈ range (op + 1), extra q ≤ ∑ q ∈ range n, extra q :=
        sum_le_sum_of_subset (range_subset_range.mpr (by omega))
      rw [sum_range_succ] at hmono
      omega
    simp only [rebuildTurn]
    refine ⟨?_, ?_, ?_, ?_, ?_⟩
    · rw [List.length_append, List.length_cons, List.length_replicate, hlen, sum_range_succ]
      omega
    · rw [List.length_append, hplen, List.length_singleton]
    · intro op hop
      by_cases hlt : op < n
      · rw [List.getElem?_append_left (by omega)]
        exact hpos op hlt
      · obtain rfl : op = n := by omega
        rw [List.getElem?_append_right (by omega), hplen, Nat.sub_self, hlen]
        rfl
    · intro op hop
      by_cases hlt : op < n
      · have := hbefore op hlt
        rw [List.getElem?_append_left (by omega)]
        exact hold op hlt
      · obtain rfl : op = n := by omega
        rw [List.getElem?_append_right (by omega), hlen, Nat.sub_self, List.getElem?_cons_zero, hcode, List.getElem?_eq_getElem hn]
    · intro op hop e he
      by_cases hlt : op < n
      · have := hbefore op hlt
        rw [List.getElem?_append_left (by omega)]
        exact hjmp op hlt e he
      · obtain rfl : op = n := by omega
        rw [List.getElem?_append_right (by omega), hlen]
        have hidx : op + ∑ q ∈ range op, extra q + 1 + e - (op + ∑ q ∈ range op, extra q) = e + 1 := by omega
        rw [hidx, List.getElem?_cons_succ, List.getElem?_replicate, if_pos he]

/-- Changing elements at different places changes each of them once. -/
theorem getElem?_foldl_modify {α β : Type} (pos : β → Nat) (g : β → α → α) (l : List β) (hl : (l.map pos).Nodup) (code : List α)
    (k : Nat) :
    (∀ b ∈ l, pos b = k → (l.foldl (fun code b => code.modify (pos b) (g b)) code)[k]? = code[k]?.map (g b)) ∧
      ((∀ b ∈ l, pos b ≠ k) → (l.foldl (fun code b => code.modify (pos b) (g b)) code)[k]? = code[k]?) := by
  induction l generalizing code with
  | nil => exact ⟨fun b hb => absurd hb List.not_mem_nil, fun _ => rfl⟩
  | cons c l ih =>
    rw [List.map_cons, List.nodup_cons] at hl
    obtain ⟨hat, hoff⟩ := ih hl.2 (code.modify (pos c) (g c))
    rw [List.foldl_cons]
    constructor
    · intro b hb hk
      rcases List.mem_cons.mp hb with rfl | hb
      · have hnone : ∀ b' ∈ l, pos b' ≠ k := by
          rintro b' hb' rfl
          exact hl.1 (hk ▸ List.mem_map_of_mem hb')
        rw [hoff hnone, ← hk, List.getElem?_modify_eq]
        rfl
      · have hne : pos c ≠ k := by
          rintro rfl
          exact hl.1 (hk ▸ List.mem_map_of_mem hb)
        rw [hat b hb hk, List.getElem?_modify_ne _ _ hne]
    · intro hnone
      have hc := hnone c List.mem_cons_self
      rw [hoff fun b hb => hnone b (List.mem_cons_of_mem c hb), List.getElem?_modify_ne _ _ hc]

end CronoVM
