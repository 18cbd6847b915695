import CronoVM.Lemmas.SwitchTable

/-!
# The selected block

What a `switch` selects, and that the chain and the table both have it for the value in the register of the condition.
-/

namespace CronoVM

open Checked Ir

/-! ## The semantics of `switch` -/

/-- The block a `switch` selects for `x`: that of the case with the value, else the default block. -/
def Ir.select {N : Nat} (x : BitVec N) (dflt : Nat) : List (BitVec N × Nat) → Nat
  | [] => dflt
  | c :: cases => if x = c.1 then c.2 else select x dflt cases

/-- A case as the translator reads it: a constant integer and a block. -/
def caseOperand {N : Nat} (c : BitVec N × Nat) : Val × Nat := (.const (.int N c.1.toNat), c.2)

section select

variable {N : Nat} {dflt : Nat} {cases : List (BitVec N × Nat)}

theorem select_cons {x : BitVec N} {c : BitVec N × Nat} : select x dflt (c :: cases) = if x = c.1 then c.2 else select x dflt cases := rfl

/-- A value that no case has selects the default block. -/
theorem select_of_forall_ne {x : BitVec N} (h : ∀ c ∈ cases, x ≠ c.1) : select x dflt cases = dflt := by
  induction cases with
  | nil => rfl
  | cons c cases ih =>
    rw [select_cons, if_neg (h c List.mem_cons_self)]
    exact ih fun c' hc' => h c' (List.mem_cons_of_mem c hc')

/-- The value of a case selects its block, where the values are distinct. -/
theorem select_of_mem (hdistinct : (cases.map Prod.fst).Nodup) {c : BitVec N × Nat} (hc : c ∈ cases) : select c.1 dflt cases = c.2 := by
  induction cases with
  | nil => exact absurd hc List.not_mem_nil
  | cons c' cases ih =>
    rw [List.map_cons, List.nodup_cons] at hdistinct
    rw [select_cons]
    rcases List.mem_cons.mp hc with rfl | hc
    · rw [if_pos rfl]
    · have hne : c.1 ≠ c'.1 := fun h => hdistinct.1 (h ▸ List.mem_map_of_mem hc)
      rw [if_neg hne]
      exact ih hdistinct.2 hc

/-- The default block is selected where the case with the value, if any, goes there. -/
theorem select_eq_dflt (hdistinct : (cases.map Prod.fst).Nodup) {x : BitVec N} :
    select x dflt cases = dflt ↔ ∀ c ∈ cases, c.1 = x → c.2 = dflt := by
  constructor
  · rintro h c hc rfl
    rwa [select_of_mem hdistinct hc] at h
  · intro h
    by_cases hex : ∃ c ∈ cases, c.1 = x
    · obtain ⟨c, hc, rfl⟩ := hex
      rw [select_of_mem hdistinct hc]
      exact h c hc rfl
    · exact select_of_forall_ne fun c hc heq => hex ⟨c, hc, heq.symm⟩

end select

/-- The block the dispatch goes to for the word `x`, which it compares with the low words of the case values. -/
def dispatchTarget {N : Nat} (x : Word) (dflt : Nat) : List (BitVec N × Nat) → Nat
  | [] => dflt
  | c :: cases => if x = c.1.setWidth 32 then c.2 else dispatchTarget x dflt cases

section dispatch

variable {N : Nat} {dflt : Nat} {cases : List (BitVec N × Nat)} {x : Word}

theorem dispatchTarget_cons {c : BitVec N × Nat} :
    dispatchTarget x dflt (c :: cases) = if x = c.1.setWidth 32 then c.2 else dispatchTarget x dflt cases := rfl

theorem dispatchTarget_of_forall_ne (h : ∀ c ∈ cases, x ≠ c.1.setWidth 32) : dispatchTarget x dflt cases = dflt := by
  induction cases with
  | nil => rfl
  | cons c cases ih =>
    rw [dispatchTarget_cons, if_neg (h c List.mem_cons_self)]
    exact ih fun c' hc' => h c' (List.mem_cons_of_mem c hc')

theorem dispatchTarget_of_mem (hdistinct : (cases.map fun c => c.1.setWidth 32).Nodup) {c : BitVec N × Nat} (hc : c ∈ cases) :
    dispatchTarget (c.1.setWidth 32) dflt cases = c.2 := by
  induction cases with
  | nil => exact absurd hc List.not_mem_nil
  | cons c' cases ih =>
    rw [List.map_cons, List.nodup_cons] at hdistinct
    rw [dispatchTarget_cons]
    rcases List.mem_cons.mp hc with rfl | hc
    · rw [if_pos rfl]
    · have hne : c.1.setWidth 32 ≠ c'.1.setWidth 32 := fun h => hdistinct.1 (h ▸ List.mem_map_of_mem hc)
      rw [if_neg hne]
      exact ih hdistinct.2 hc

theorem toNat_lt_of_le (hN : N ≤ 32) (v : BitVec N) : v.toNat < 2 ^ 32 := Nat.lt_of_lt_of_le v.isLt (Nat.pow_le_pow_right (by decide) hN)

/-- In a word, a value is told by its bound and its low bits. -/
theorem eq_setWidth_iff (hN : N ≤ 32) {v : BitVec N} : x = v.setWidth 32 ↔ x.toNat < 2 ^ N ∧ x.setWidth N = v := by
  constructor
  · rintro rfl
    refine ⟨?_, by rw [BitVec.setWidth_setWidth_of_le _ hN, BitVec.setWidth_eq]⟩
    rw [BitVec.toNat_setWidth, Nat.mod_eq_of_lt (toNat_lt_of_le hN v)]
    exact v.isLt
  · rintro ⟨hlt, rfl⟩
    apply BitVec.eq_of_toNat_eq
    rw [BitVec.toNat_setWidth, BitVec.toNat_setWidth, Nat.mod_eq_of_lt hlt, Nat.mod_eq_of_lt x.isLt]

/-- A value with bits above the width is no case's. -/
theorem dispatchTarget_narrow (hN : N ≤ 32) (x : Word) (dflt : Nat) (cases : List (BitVec N × Nat)) :
    dispatchTarget x dflt cases = if x.toNat < 2 ^ N then select (x.setWidth N) dflt cases else dflt := by
  induction cases with
  | nil =>
    rw [select, ite_self]
    rfl
  | cons c cases ih =>
    rw [dispatchTarget_cons, select_cons, ih]
    by_cases hlt : x.toNat < 2 ^ N
    · simp only [eq_setWidth_iff hN, hlt, true_and, if_true]
    · simp only [eq_setWidth_iff hN, hlt, false_and, if_false]

theorem dispatchTarget_zext (hN : N ≤ 32) (v : BitVec N) (dflt : Nat) (cases : List (BitVec N × Nat)) :
    dispatchTarget (v.setWidth 32) dflt cases = select v dflt cases := by
  obtain ⟨hlt, hlow⟩ := (eq_setWidth_iff hN).mp (show v.setWidth 32 = v.setWidth 32 from rfl)
  rw [dispatchTarget_narrow hN, if_pos hlt, hlow]

/-- The dispatch goes to the selected block if there are no bits above the width, or the selected block is the default block. -/
theorem dispatchTarget_eq_select (hN : N ≤ 32) (hdistinct : (cases.map Prod.fst).Nodup) (x : Word) :
    dispatchTarget x dflt cases = select (x.setWidth N) dflt cases ↔
      x.toNat < 2 ^ N ∨ ∀ c ∈ cases, c.1 = x.setWidth N → c.2 = dflt := by
  rw [← select_eq_dflt hdistinct, dispatchTarget_narrow hN]
  by_cases hlt : x.toNat < 2 ^ N
  · rw [if_pos hlt]
    exact ⟨fun _ => Or.inl hlt, fun _ => rfl⟩
  · rw [if_neg hlt]
    constructor
    · intro h
      exact Or.inr h.symm
    · rintro (h | h)
      · exact absurd h hlt
      · exact h.symm

end dispatch

/-! ## Case values as words -/

section values

variable {N : Nat} (hN : N ≤ 64)
include hN

theorem caseValue_caseOperand (c : BitVec N × Nat) : caseValue N (caseOperand c).1 = some c.1.toNat := by
  have hlt := c.1.isLt
  show some (c.1.toNat % 2 ^ N % 2 ^ min N 64) = _
  rw [Nat.min_eq_left hN, Nat.mod_eq_of_lt hlt, Nat.mod_eq_of_lt hlt]

/-- The value of a case as the table has it. -/
theorem caseInt_caseOperand (c : BitVec N × Nat) :
    caseInt N (caseOperand c).1 = if c.1.toNat < 2 ^ 32 then some (c.1.setWidth 32).toInt else none := by
  rw [caseInt, caseValue_caseOperand hN]
  dsimp only
  by_cases hlt : c.1.toNat < 2 ^ 32
  · rw [if_neg (by omega), if_pos hlt, BitVec.ofNat_toNat]
  · rw [if_pos (by omega), if_neg hlt]

/-- The chain goes to the first case with the word. -/
theorem chainTarget_getD (x : Word) (dflt : Nat) (cases : List (BitVec N × Nat)) :
    (chainTarget N x (cases.map caseOperand)).getD dflt = dispatchTarget x dflt cases := by
  induction cases with
  | nil => rfl
  | cons c cases ih =>
    rw [List.map_cons, chainTarget_cons (caseValue_caseOperand hN c), BitVec.ofNat_toNat, dispatchTarget_cons]
    by_cases hx : x = c.1.setWidth 32
    · rw [if_pos hx, if_pos hx]
      rfl
    · rw [if_neg hx, if_neg hx, ih]

end values

/-! ## The bounds of the table -/

theorem foldl_min_le (l : List Int) (a : Int) : l.foldl min a ≤ a ∧ ∀ x ∈ l, l.foldl min a ≤ x := by
  induction l generalizing a with
  | nil => exact ⟨Int.le_refl a, fun x hx => absurd hx List.not_mem_nil⟩
  | cons y l ih =>
    obtain ⟨ha, hl⟩ := ih (min a y)
    rw [List.foldl_cons]
    refine ⟨by omega, fun x hx => ?_⟩
    rcases List.mem_cons.mp hx with rfl | hx
    · omega
    · exact hl x hx

theorem le_foldl_max (l : List Int) (a : Int) : a ≤ l.foldl max a ∧ ∀ x ∈ l, x ≤ l.foldl max a := by
  induction l generalizing a with
  | nil => exact ⟨Int.le_refl a, fun x hx => absurd hx List.not_mem_nil⟩
  | cons y l ih =>
    obtain ⟨ha, hl⟩ := ih (max a y)
    rw [List.foldl_cons]
    refine ⟨by omega, fun x hx => ?_⟩
    rcases List.mem_cons.mp hx with rfl | hx
    · omega
    · exact hl x hx

/-- Every case of a switch that gets a table has its entry in it. -/
theorem switchTable_bounds {condW nRange : Nat} {values : List Val} {lo : Int} (h : switchTable condW values = some (lo, nRange)) :
    ∀ v ∈ values, ∃ iv, caseInt condW v = some iv ∧ lo ≤ iv ∧ iv - lo < nRange := by
  unfold switchTable at h
  split at h
  · nomatch h
  split at h
  case isTrue => nomatch h
  case isFalse hall =>
  rw [Bool.not_eq_false] at hall
  intro v hv
  have hsome : (caseInt condW v).isSome := List.all_eq_true.mp hall v hv
  obtain ⟨iv, hiv⟩ := Option.isSome_iff_exists.mp hsome
  refine ⟨iv, hiv, ?_⟩
  have hmem : iv ∈ values.filterMap (caseInt condW) := List.mem_filterMap.mpr ⟨v, hv, hiv⟩
  cases hints : values.filterMap (caseInt condW) with
  | nil =>
    rw [hints] at hmem
    exact absurd hmem List.not_mem_nil
  | cons first rest =>
    rw [hints] at h hmem
    dsimp only at h
    obtain ⟨hmin, hmins⟩ := foldl_min_le rest first
    obtain ⟨hmax, hmaxs⟩ := le_foldl_max rest first
    split at h
    case isFalse => nomatch h
    obtain ⟨rfl, rfl⟩ := Prod.mk.inj (Option.some.inj h)
    rcases List.mem_cons.mp hmem with rfl | hmem
    · omega
    · have := hmins iv hmem
      have := hmaxs iv hmem
      omega

/-! ## The entries of the table -/

/-- The entry of a case. -/
def entryOf {N : Nat} (lo : Int) (c : BitVec N × Nat) : Nat := (c.1.setWidth 32).toInt - lo |>.toNat

section entries

variable {N : Nat} (hN : N ≤ 64) {dflt nRange : Nat} {lo : Int} {cases : List (BitVec N × Nat)}

/-- The entry of a case is its distance from the least value, with wrap-around or without. -/
theorem entryOf_eq {c : BitVec N × Nat} (hlo : lo ≤ (c.1.setWidth 32).toInt) (hlt : (c.1.setWidth 32).toInt - lo < 2 ^ 32) :
    (c.1.setWidth 32 - BitVec.ofInt 32 lo).toNat = entryOf lo c := by
  have hsub : c.1.setWidth 32 - BitVec.ofInt 32 lo = BitVec.ofInt 32 ((c.1.setWidth 32).toInt - lo) := by
    rw [BitVec.sub_eq_iff_eq_add, ← BitVec.ofInt_add, Int.sub_add_cancel, BitVec.ofInt_toInt]
  rw [hsub, BitVec.toNat_ofInt, entryOf]
  omega

/-- The cases are words, and each has its entry in the table. -/
def InTable {N : Nat} (lo : Int) (nRange : Nat) (cases : List (BitVec N × Nat)) : Prop :=
  ∀ c ∈ cases, c.1.toNat < 2 ^ 32 ∧ lo ≤ (c.1.setWidth 32).toInt ∧ (c.1.setWidth 32).toInt - lo < nRange

variable (hin : InTable lo nRange cases)

include hN hin in
theorem tableTargets_caseOperand : tableTargets N dflt lo nRange (cases.map caseOperand) =
    cases.foldl (fun targets c => targets.modify (entryOf lo c) fun _ => c.2) (List.replicate nRange dflt) := by
  have hfold : ∀ targets : List Nat, (cases.map caseOperand).foldl
      (fun targets c => targets.set (((caseInt N c.1).getD 0) - lo).toNat c.2) targets =
      cases.foldl (fun targets c => targets.modify (entryOf lo c) fun _ => c.2) targets := by
    induction cases with
    | nil => exact fun _ => rfl
    | cons c cases ih =>
      intro targets
      rw [List.map_cons, List.foldl_cons, List.foldl_cons, ih fun c' hc' => hin c' (List.mem_cons_of_mem c hc'), List.set_eq_modify,
        caseInt_caseOperand hN, if_pos (hin c List.mem_cons_self).1, Option.getD_some]
      rfl
  exact hfold _

include hin in
/-- Distinct cases have distinct words. -/
theorem nodup_words (hdistinct : (cases.map Prod.fst).Nodup) : (cases.map fun c => c.1.setWidth 32).Nodup := by
  induction cases with
  | nil => exact List.nodup_nil
  | cons c cases ih =>
    rw [List.map_cons, List.nodup_cons] at hdistinct ⊢
    refine ⟨?_, ih (fun c' hc' => hin c' (List.mem_cons_of_mem c hc')) hdistinct.2⟩
    intro hmem
    obtain ⟨c', hc', heq⟩ := List.mem_map.mp hmem
    have hlt := (hin c List.mem_cons_self).1
    have hlt' := (hin c' (List.mem_cons_of_mem c hc')).1
    have hvalue : c'.1 = c.1 := by
      apply BitVec.eq_of_toNat_eq
      have hnat := congrArg BitVec.toNat heq
      rwa [BitVec.toNat_setWidth, BitVec.toNat_setWidth, Nat.mod_eq_of_lt hlt', Nat.mod_eq_of_lt hlt] at hnat
    exact hdistinct.1 (hvalue ▸ List.mem_map_of_mem hc')

include hin in
/-- Distinct words have distinct entries. -/
theorem nodup_entries (hdistinct : (cases.map fun c => c.1.setWidth 32).Nodup) : (cases.map (entryOf lo)).Nodup := by
  induction cases with
  | nil => exact List.nodup_nil
  | cons c cases ih =>
    rw [List.map_cons, List.nodup_cons] at hdistinct ⊢
    refine ⟨?_, ih (fun c' hc' => hin c' (List.mem_cons_of_mem c hc')) hdistinct.2⟩
    intro hmem
    obtain ⟨c', hc', heq⟩ := List.mem_map.mp hmem
    have hlo := (hin c List.mem_cons_self).2.1
    have hlo' := (hin c' (List.mem_cons_of_mem c hc')).2.1
    have hint : (c'.1.setWidth 32).toInt = (c.1.setWidth 32).toInt := by
      simp only [entryOf] at heq
      omega
    exact hdistinct.1 (List.mem_map.mpr ⟨c', hc', BitVec.eq_of_toInt_eq hint⟩)

include hN hin in
/-- The table has the block of each case at its entry, and the default block at the others. -/
theorem tableTarget_eq (hdistinct : (cases.map Prod.fst).Nodup) (hsize : nRange < 2 ^ 32) (x : Word) :
    tableTarget dflt lo (tableTargets N dflt lo nRange (cases.map caseOperand)) x = dispatchTarget x dflt cases := by
  have hwords := nodup_words hin hdistinct
  obtain ⟨hat, hoff⟩ := getElem?_foldl_modify (entryOf lo) (fun c _ => c.2) cases (nodup_entries hin hwords)
    (List.replicate nRange dflt) (x - BitVec.ofInt 32 lo).toNat
  rw [tableTarget, List.getD_eq_getElem?_getD, tableTargets_caseOperand hN hin]
  by_cases hex : ∃ c ∈ cases, c.1.setWidth 32 = x
  · obtain ⟨c, hc, rfl⟩ := hex
    obtain ⟨_, hlo, hlt⟩ := hin c hc
    have hentry := entryOf_eq hlo (by omega)
    have hrange : entryOf lo c < nRange := by
      simp only [entryOf]
      omega
    rw [hat c hc hentry.symm, hentry, List.getElem?_replicate, if_pos hrange, dispatchTarget_of_mem hwords hc]
    rfl
  · have hnone : ∀ c ∈ cases, entryOf lo c ≠ (x - BitVec.ofInt 32 lo).toNat := by
      intro c hc heq
      obtain ⟨_, hlo, hlt⟩ := hin c hc
      rw [← entryOf_eq hlo (by omega)] at heq
      exact hex ⟨c, hc, (BitVec.sub_left_inj _).mp (BitVec.eq_of_toNat_eq heq)⟩
    rw [hoff hnone, List.getElem?_replicate, dispatchTarget_of_forall_ne fun c hc heq => hex ⟨c, hc, heq.symm⟩]
    split <;> rfl

end entries

/-! ## Where the dispatch goes -/

/-- The code generator at the dispatch over a register. -/
structure CgFn.AtDispatch (cg : CgFn) (condReg : Byte) : Prop where
  held : Held condReg cg.nextReg
  next : cg.nextReg ≤ cgMaxEmitReg + 1
  pool : cg.freeList = []
  zero : cg.zeroReg = cgRegZero
  underWay : cg.UnderWay

/-- In each finished function that goes on from `cg'`, with the `n` bytes of data from `a` on in place and `x` in the register of the
condition, the code added since `cg` goes to block `bb`; only scratch registers change, and nothing is read but these bytes. -/
def DispatchesTo (κ W : Type) (cg cg' : CgFn) (condReg : Byte) (x : Word) (a n bb : Nat) : Prop :=
  ∀ {final cg₂ : CgFn} {img : Image κ} (host : Host κ W) (f : Frame κ W), Later cg' final → InImage final cg₂ img →
    (∀ b ∈ final.blocks, final.offsetOf b < final.code.length) → HoldsData cg₂ img f a n → f.regs cgRegZero = 0 → f.regs condReg = x →
    ∃ f', f.AgreesOff (Scratch cg.nextReg) f' ∧ GoesVia final img host a n cg.code.length f (final.offsetOf bb) f'

section dispatches

variable (κ W : Type) {N : Nat} (hN : N ≤ 64) {cg : CgFn} {condReg : Byte} (hcg : cg.AtDispatch condReg) {cases : List (BitVec N × Nat)}
  (dflt : Nat)
include hN hcg

theorem wp_chain_dispatches : Exec.wp (cgSwitchChain N condReg dflt (cases.map caseOperand)) (fun _ cg' => OnlyAdds cg cg' ∧
      ∀ x a n, DispatchesTo κ W cg cg' condReg x a n (dispatchTarget x dflt cases))
    (fun e _ => e = .scratchExhausted ∧ cg.nextReg + 1 > cgMaxEmitReg) cg := by
  refine Exec.wp_mono ?_ ?_ (wp_cgSwitchChain κ W hcg.held hcg.next hcg.pool hcg.zero hcg.underWay)
  · rintro _ cg' ⟨hadds, hleads⟩
    refine ⟨hadds, fun x a n final cg₂ img host f hlater himg _ _ hzero hx => ?_⟩
    obtain ⟨f', hag, hgo⟩ := hleads host a n f hlater himg hzero
    dsimp only at hgo
    rw [hx, chainTarget_getD hN] at hgo
    exact ⟨f', hag, hgo⟩
  · intro e _ he
    cases he with
    | scratchExhausted hfull => exact ⟨rfl, hfull⟩
    | caseNotConst c hc hvalue =>
      obtain ⟨c', _, rfl⟩ := List.mem_map.mp hc
      rw [caseValue_caseOperand hN] at hvalue
      nomatch hvalue

theorem wp_table_dispatches (hdistinct : (cases.map Prod.fst).Nodup) {lo : Int} {nRange : Nat}
    (htable : switchTable N ((cases.map caseOperand).map Prod.fst) = some (lo, nRange)) :
    Exec.wp (cgSwitchTable N condReg dflt lo nRange (cases.map caseOperand)) (fun _ cg' => OnlyAdds cg cg' ∧
        cg'.dataBytes.length = cg.dataBytes.length + 4 * nRange ∧
        ∀ x, DispatchesTo κ W cg cg' condReg x cg.dataBytes.length (4 * nRange) (dispatchTarget x dflt cases))
      (fun e _ => e = .scratchExhausted ∧ cg.nextReg + 8 > cgMaxEmitReg) cg := by
  have hin : InTable lo nRange cases := by
    intro c hc
    have hmem : (caseOperand c).1 ∈ (cases.map caseOperand).map Prod.fst := List.mem_map_of_mem (List.mem_map_of_mem hc)
    obtain ⟨iv, hiv, hlo, hlt⟩ := switchTable_bounds htable _ hmem
    rw [caseInt_caseOperand hN] at hiv
    by_cases hword : c.1.toNat < 2 ^ 32
    · rw [if_pos hword] at hiv
      obtain rfl := Option.some.inj hiv
      exact ⟨hword, hlo, hlt⟩
    · rw [if_neg hword] at hiv
      nomatch hiv
  have hlen := length_tableTargets N dflt lo nRange (cases.map caseOperand)
  refine Exec.wp_mono ?_ (fun _ _ he => he) (wp_cgSwitchTable hcg.pool)
  rintro _ cg' ⟨hroom, rfl⟩
  have hdata : (afterTable condReg dflt lo nRange (tableTargets N dflt lo nRange (cases.map caseOperand)) cg).dataBytes.length =
      cg.dataBytes.length + 4 * nRange := by
    show (cg.dataBytes ++ List.replicate (nRange * 4) 0).length = _
    rw [List.length_append, List.length_replicate, Nat.mul_comm]
  refine ⟨onlyAdds_afterTable hlen, hdata, fun x final cg₂ img host f hlater himg hcode hdata hzero hx => ?_⟩
  obtain ⟨f', hag, hgo⟩ := goesVia_afterTable host hcg.held hroom hcg.zero hcg.underWay hlen hlater himg hcode hdata hzero
  have hfits := hdata.fits
  have hsize := img.memSize.isLt
  rw [hx, tableTarget_eq hN hin hdistinct (by omega)] at hgo
  exact ⟨f', hag, hgo⟩

/-- The dispatch in the form that is chosen. -/
theorem wp_cgSwitchDispatch (hdistinct : (cases.map Prod.fst).Nodup) :
    Exec.wp (cgSwitchDispatch N condReg dflt (cases.map caseOperand)) (fun _ cg' => OnlyAdds cg cg' ∧
        ∀ x, DispatchesTo κ W cg cg' condReg x cg.dataBytes.length (cg'.dataBytes.length - cg.dataBytes.length)
          (dispatchTarget x dflt cases))
      (fun e _ => e = .scratchExhausted) cg := by
  unfold cgSwitchDispatch
  cases htable : switchTable N ((cases.map caseOperand).map Prod.fst) with
  | none =>
    refine Exec.wp_mono ?_ (fun _ _ he => he.1) (wp_chain_dispatches κ W hN hcg dflt)
    rintro _ cg' ⟨hadds, hgo⟩
    exact ⟨hadds, fun x => hgo x _ _⟩
  | some bounds =>
    obtain ⟨lo, nRange⟩ := bounds
    refine Exec.wp_mono ?_ (fun _ _ he => he.1) (wp_table_dispatches κ W hN hcg dflt hdistinct htable)
    rintro _ cg' ⟨hadds, hdata, hgo⟩
    refine ⟨hadds, fun x => ?_⟩
    rw [hdata, Nat.add_sub_cancel_left]
    exact hgo x

end dispatches

end CronoVM
