import CronoVM.Translator.ControlFlow
import Mathlib.Data.List.NodupEquivFin
import Mathlib.Data.List.Pairwise

/-!
# Where values are live

A block-local value is live between its definition and its last use only. So another value of the block that is defined after that is never
live at the same time, and its definition writes over nothing.
-/

namespace CronoVM.Ir.Func

/-- Two different members of a list stand in the relation, one way or the other. -/
theorem rel_or_rel {α : Type} {R : α → α → Prop} {l : List α} (h : l.Pairwise R) {a b : α} (ha : a ∈ l) (hb : b ∈ l) (hne : a ≠ b) :
    R a b ∨ R b a := by
  have : Std.Symm fun x y => R x y ∨ R y x := ⟨fun _ _ hxy => hxy.symm⟩
  exact (h.imp (S := fun x y => R x y ∨ R y x) Or.inl).forall ha hb hne

variable {fn : Func}

/-! ## Instructions and their blocks -/

theorem mem_insts {b : Block} {i : Inst} (hb : b ∈ fn.blocks) (hi : i ∈ b.insts) : i ∈ fn.insts := List.mem_flatMap.mpr ⟨b, hb, hi⟩

theorem insts_sublist {b : Block} (hb : b ∈ fn.blocks) : b.insts.Sublist fn.insts := by
  unfold insts
  rw [List.flatMap_def]
  exact List.sublist_flatten_of_mem (List.mem_map_of_mem hb)

theorem mem_body {b : Block} {i : Inst} : i ∈ b.body ↔ i ∈ b.insts ∧ i.op ≠ .phi := by
  unfold Block.body
  rw [List.mem_filter, decide_eq_true_iff]

/-- An instruction has one place. -/
theorem WellFormed.place_eq (hfn : fn.WellFormed) {s t : Nat} {i j : Inst} (hi : fn.insts[s]? = some i) (hj : fn.insts[t]? = some j)
    (h : i.result = j.result) : s = t := by
  have hid : i.id = j.id := Local.inst.inj h
  have hs : (fn.insts.map Inst.id)[s]? = some i.id := by rw [List.getElem?_map, hi, Option.map_some]
  have ht : (fn.insts.map Inst.id)[t]? = some i.id := by rw [List.getElem?_map, hj, Option.map_some, hid]
  exact (List.getElem?_inj (List.getElem?_eq_some_iff.mp hs).1 hfn.ids).mp (hs.trans ht.symm)

theorem WellFormed.eq_of_result (hfn : fn.WellFormed) {i j : Inst} (hi : i ∈ fn.insts) (hj : j ∈ fn.insts) (h : i.result = j.result) :
    i = j := by
  obtain ⟨s, hs⟩ := List.mem_iff_getElem?.mp hi
  obtain ⟨t, ht⟩ := List.mem_iff_getElem?.mp hj
  obtain rfl := hfn.place_eq hs ht h
  exact Option.some.inj (hs.symm.trans ht)

/-- An instruction is in one block. -/
theorem WellFormed.block_eq (hfn : fn.WellFormed) {b c : Block} {i : Inst} (hb : b ∈ fn.blocks) (hc : c ∈ fn.blocks) (hib : i ∈ b.insts)
    (hic : i ∈ c.insts) : b = c := by
  have hnodup : fn.insts.Nodup := hfn.ids.of_map
  have hapart := (List.nodup_flatMap.mp hnodup).2
  by_contra hne
  rcases rel_or_rel hapart hb hc hne with hdisjoint | hdisjoint
  · exact hdisjoint hib hic
  · exact hdisjoint hic hib

theorem WellFormed.parent?_eq (hfn : fn.WellFormed) {b : Block} {i : Inst} (hb : b ∈ fn.blocks) (hi : i ∈ b.insts) :
    fn.parent? i.id = some b.id := by
  have hany : (b.insts.any fun j => j.id == i.id) = true := List.any_eq_true.mpr ⟨i, hi, beq_self_eq_true i.id⟩
  unfold parent?
  cases hfind : fn.blocks.find? fun b : Block => b.insts.any fun j => j.id == i.id with
  | none => exact absurd hany (List.find?_eq_none.mp hfind b hb)
  | some c =>
    have hc := List.mem_of_find?_eq_some hfind
    have hcany : (c.insts.any fun j => j.id == i.id) = true := List.find?_some (p := fun b : Block => b.insts.any fun j => j.id == i.id) hfind
    obtain ⟨j, hj, hid⟩ := List.any_eq_true.mp hcany
    have heq : j = i := hfn.eq_of_result (mem_insts hc hj) (mem_insts hb hi) (congrArg Local.inst (eq_of_beq hid))
    subst heq
    rw [Option.map_some, hfn.block_eq hc hb hj hi]

theorem Ssa.block_of_id (hfn : fn.Ssa) {b c : Block} (hb : b ∈ fn.blocks) (hc : c ∈ fn.blocks) (h : b.id = c.id) : b = c :=
  List.inj_on_of_nodup_map hfn.blockIds hb hc h

/-- A phi stands before the other instructions of its block. -/
theorem Ssa.phis_eq (hfn : fn.Ssa) {b : Block} (hb : b ∈ fn.blocks) : b.phis = b.insts.filter fun i => i.op = .phi := by
  have htake : ∀ insts : List Inst, insts.Pairwise (fun i j => i.op ≠ .phi → j.op ≠ .phi) →
      (insts.takeWhile fun i => i.op = .phi) = insts.filter fun i => i.op = .phi := by
    intro insts hfirst
    induction insts with
    | nil => rfl
    | cons i insts ih =>
      obtain ⟨hi, hrest⟩ := List.pairwise_cons.mp hfirst
      by_cases hphi : i.op = .phi
      · rw [List.takeWhile_cons_of_pos (by simp [hphi]), List.filter_cons_of_pos (by simp [hphi]), ih hrest]
      · rw [List.takeWhile_cons_of_neg (by simp [hphi]), List.filter_cons_of_neg (by simp [hphi])]
        exact (List.filter_eq_nil_iff.mpr fun j hj => by simp [hi j hj hphi]).symm
  exact htake b.insts (hfn.phisFirst b hb)

theorem Ssa.mem_phis (hfn : fn.Ssa) {b : Block} (hb : b ∈ fn.blocks) {i : Inst} : i ∈ b.phis ↔ i ∈ b.insts ∧ i.op = .phi := by
  rw [hfn.phis_eq hb, List.mem_filter, decide_eq_true_iff]

/-- The value of a phi on an edge is an operand of it. -/
theorem mem_operands_of_incomingFrom {phi : Inst} {pred : Nat} {v : Val} (h : incomingFrom phi pred = some v) : v ∈ phi.operands := by
  obtain ⟨e, he, rfl⟩ := Option.map_eq_some_iff.mp h
  exact (List.of_mem_zip (List.mem_of_find?_eq_some he)).2

/-- A function that passes the check keeps the rules. -/
theorem ssa_of_check {set : Point → List Local} (h : fn.ssaCheck set = true) : fn.Ssa := by
  unfold ssaCheck at h
  simp only [Bool.and_eq_true, decide_eq_true_eq, List.all_eq_true, Bool.or_eq_true, Bool.not_eq_true', decide_eq_false_iff_not] at h
  obtain ⟨⟨⟨⟨⟨hids, hlanes⟩, hblockIds⟩, hblocks⟩, hstart⟩, hset⟩ := h
  -- a value that is not set on some path is not among those set
  have hunset : ∀ p v, fn.graph.Unset v p → v ∉ set p := by
    intro p v hp
    induction hp with
    | start hgiven =>
      intro hmem
      have hv := hstart v hmem
      cases v with
      | arg k => exact hgiven ⟨k, rfl⟩
      | inst id => nomatch hv
    | @move p p' m _ hmove hdefs ih =>
      intro hmem
      cases hmove with
      | @inst b k i hb hi =>
        have hin : (i, k) ∈ b.body.zipIdx := List.mem_zipIdx_iff_getElem?.mpr hi
        rcases ((hset b hb).1 (i, k) hin).2 v hmem with heq | hbefore
        · exact hdefs heq
        · exact ih hbefore
      | @edge pred succ hpred hsucc hin =>
        rcases (hset pred hpred).2 succ hsucc with hno | ⟨-, hall⟩
        · exact hno hin
        · rcases hall v hmem with hphi | hbefore
          · obtain ⟨phi, hphi, heq⟩ := List.any_eq_true.mp hphi
            exact hdefs ⟨phi, hphi, of_decide_eq_true heq⟩
          · exact ih hbefore
  refine ⟨⟨hids, fun i hi hvector => ?_⟩, hblockIds, fun b hb => (hblocks b hb).1, fun b hb => (hblocks b hb).2, ?_⟩
  · exact (hlanes i hi).resolve_left fun hno => Bool.false_ne_true (hno.symm.trans hvector)
  · intro p p' m v hmove huse hp
    refine hunset p v hp ?_
    cases hmove with
    | @inst b k i hb hi =>
      have hin : (i, k) ∈ b.body.zipIdx := List.mem_zipIdx_iff_getElem?.mpr hi
      exact of_decide_eq_true (((hset b hb).1 (i, k) hin).1 (.loc v) huse)
    | @edge pred succ hpred hsucc hin =>
      obtain ⟨phi, hphi, hincoming⟩ := huse
      rcases (hset pred hpred).2 succ hsucc with hno | ⟨hphis, -⟩
      · exact absurd hin hno
      · have hread := hphis phi hphi
        rw [hincoming] at hread
        exact of_decide_eq_true hread

/-! ## Moves -/

/-- An instruction that is no phi is at one point. -/
theorem Ssa.point_eq (hfn : fn.Ssa) {b c : Block} {k n : Nat} {i j : Inst} (hb : b ∈ fn.blocks) (hc : c ∈ fn.blocks) (hi : b.body[k]? = some i)
    (hj : c.body[n]? = some j) (h : i.result = j.result) : b = c ∧ k = n := by
  have hib := (mem_body.mp (List.mem_of_getElem? hi)).1
  have hjc := (mem_body.mp (List.mem_of_getElem? hj)).1
  obtain rfl := hfn.eq_of_result (mem_insts hb hib) (mem_insts hc hjc) h
  obtain rfl := hfn.block_eq hb hc hib hjc
  have hnodup : b.body.Nodup := (hfn.ids.of_map.sublist (insts_sublist hb)).filter _
  exact ⟨rfl, (List.getElem?_inj (List.getElem?_eq_some_iff.mp hi).1 hnodup).mp (hi.trans hj.symm)⟩

/-- A phi gives no value that another instruction gives. -/
theorem Ssa.phi_ne (hfn : fn.Ssa) {b c : Block} {phi i : Inst} (hb : b ∈ fn.blocks) (hc : c ∈ fn.blocks) (hphi : phi ∈ b.phis) (hi : i ∈ c.body) :
    i.result ≠ phi.result := by
  intro h
  obtain ⟨hmem, hop⟩ := (hfn.mem_phis hb).mp hphi
  obtain ⟨himem, hiop⟩ := mem_body.mp hi
  obtain rfl := hfn.eq_of_result (mem_insts hc himem) (mem_insts hb hmem) h
  exact hiop hop

/-- Only its own instruction writes the result of an instruction. -/
theorem Ssa.point_of_defs (hfn : fn.Ssa) {b : Block} {k : Nat} {i : Inst} (hb : b ∈ fn.blocks) (hi : b.body[k]? = some i) {p p' : Point}
    {m : Move} (hmove : fn.Moves p m p') (hdefs : m.defs i.result) : p = ⟨b.id, k⟩ := by
  cases hmove with
  | inst hc hj =>
    obtain ⟨rfl, rfl⟩ := hfn.point_eq hb hc hi hj hdefs
    rfl
  | edge _ hsucc _ =>
    obtain ⟨phi, hphi, heq⟩ := hdefs
    exact absurd heq (hfn.phi_ne hsucc hb hphi (List.mem_of_getElem? hi))

/-- Up to its definition in its block, the result of an instruction is not set: where the point can be reached at all, it can be reached
without the definition. -/
theorem Ssa.unset_of_le (hfn : fn.Ssa) {b : Block} {k n : Nat} {i : Inst} (hb : b ∈ fn.blocks) (hi : b.body[k]? = some i)
    (hreach : fn.graph.Reach ⟨b.id, n⟩) (hle : n ≤ k) : fn.graph.Unset i.result ⟨b.id, n⟩ := by
  have hgiven : ¬fn.graph.given i.result := fun ⟨_, h⟩ => Local.noConfusion h
  have hhead : ∀ p, fn.graph.Unset i.result p → p.block = b.id → fn.graph.Unset i.result ⟨b.id, 0⟩ := by
    intro p hp
    induction hp with
    | start h =>
      intro hblock
      have hstart : fn.graph.start = ⟨b.id, 0⟩ := congrArg (fun id => (⟨id, 0⟩ : Point)) hblock
      rw [← hstart]
      exact .start h
    | @move p p' m hunset hmove hdefs ih =>
      cases hmove with
      | inst hc hj => exact ih
      | edge hpred hsucc hmem =>
        intro hblock
        rw [← hblock]
        exact hunset.move (Moves.edge hpred hsucc hmem) hdefs
  have hforth : ∀ m, m ≤ k → fn.graph.Unset i.result ⟨b.id, 0⟩ → fn.graph.Unset i.result ⟨b.id, m⟩ := by
    intro m hm hunset
    induction m with
    | zero => exact hunset
    | succ m ih =>
      have hlt := Nat.lt_of_succ_le hm
      obtain ⟨j, hj⟩ : ∃ j, b.body[m]? = some j :=
        ⟨_, List.getElem?_eq_getElem (hlt.trans (List.getElem?_eq_some_iff.mp hi).1)⟩
      refine (ih hlt.le).move (Moves.inst hb hj) fun hdefs => ?_
      exact absurd (congrArg Point.pos (hfn.point_of_defs hb hi (Moves.inst hb hj) hdefs)) hlt.ne
  -- the way that reaches its definition first is free of it
  rcases hreach.unset_or hgiven with hunset | ⟨q, q', m, hunset, hmove, hdefs⟩
  · exact hunset
  · exact hforth n hle (hhead q hunset (congrArg Point.block (hfn.point_of_defs hb hi hmove hdefs)))

/-! ## A register that is used again -/

/-- `w` is defined in the block of `v`, and all uses of `v` lie in the block before that. -/
def Reused (fn : Func) (v w : Local) : Prop :=
  ∃ b ∈ fn.blocks, ∃ (k₁ k₂ : Nat) (d i : Inst), b.body[k₁]? = some d ∧ b.body[k₂]? = some i ∧ v = d.result ∧ w = i.result ∧ k₁ < k₂ ∧
    (∀ c ∈ fn.blocks, ∀ phi ∈ c.phis, .loc v ∉ phi.operands) ∧
    ∀ c ∈ fn.blocks, ∀ (k : Nat) (j : Inst), c.body[k]? = some j → .loc v ∈ j.operands → c = b ∧ k < k₂

/-- The first value is live between its definition and that of the second only. -/
theorem Ssa.live_of_reused (hfn : fn.Ssa) {b : Block} {k₁ k₂ : Nat} {d : Inst} (hb : b ∈ fn.blocks) (hd : b.body[k₁]? = some d)
    (hphis : ∀ c ∈ fn.blocks, ∀ phi ∈ c.phis, .loc d.result ∉ phi.operands)
    (huses : ∀ c ∈ fn.blocks, ∀ k j, c.body[k]? = some j → .loc d.result ∈ j.operands → c = b ∧ k < k₂) {p : Point}
    (hreach : fn.graph.Reach p) (hlive : fn.graph.Live d.result p) : p.block = b.id ∧ k₁ < p.pos ∧ p.pos < k₂ := by
  induction hlive with
  | @use p p' m hmove huse =>
    cases hmove with
    | @inst c k i hc hi =>
      obtain ⟨rfl, hk⟩ := huses c hc k i hi huse
      refine ⟨rfl, ?_, hk⟩
      by_contra hle
      exact hfn.strict (Moves.inst hc hi) huse (hfn.unset_of_le hb hd hreach (Nat.not_lt.mp hle))
    | @edge pred succ hpred hsucc hmem =>
      obtain ⟨phi, hphi, hin⟩ := huse
      exact absurd (mem_operands_of_incomingFrom hin) (hphis succ hsucc phi hphi)
  | @pass p p' m hmove hdefs hlive ih =>
    obtain ⟨hblock, hlow, hhigh⟩ := ih (hreach.move hmove)
    cases hmove with
    | @inst c k i hc hi =>
      obtain rfl := hfn.block_of_id hc hb hblock
      have hlow' : k₁ < k + 1 := hlow
      have hhigh' : k + 1 < k₂ := hhigh
      have hne : k₁ ≠ k := by
        rintro rfl
        exact hdefs (congrArg Inst.result (Option.some.inj (hd.symm.trans hi)))
      refine ⟨rfl, ?_, ?_⟩
      · show k₁ < k
        omega
      · show k < k₂
        omega
    | edge _ _ _ => exact absurd hlow (Nat.not_lt_zero k₁)

/-- The second value is not live up to its definition. -/
theorem Ssa.not_live_of_le (hfn : fn.Ssa) {b : Block} {k n : Nat} {i : Inst} (hb : b ∈ fn.blocks) (hi : b.body[k]? = some i)
    (hreach : fn.graph.Reach ⟨b.id, n⟩) (hle : n ≤ k) : ¬fn.graph.Live i.result ⟨b.id, n⟩ :=
  fun hlive => hlive.not_unset hfn.strict (hfn.unset_of_le hb hi hreach hle)

/-- The two are never live at one point. -/
theorem Ssa.reused_apart (hfn : fn.Ssa) {v w : Local} (h : Reused fn v w) {p : Point} (hreach : fn.graph.Reach p) (hv : fn.graph.Live v p) :
    ¬fn.graph.Live w p := by
  obtain ⟨b, hb, k₁, k₂, d, i, hd, hi, rfl, rfl, -, hphis, huses⟩ := h
  obtain ⟨hblock, -, hhigh⟩ := hfn.live_of_reused hb hd hphis huses hreach hv
  obtain ⟨block, n⟩ := p
  obtain rfl : block = b.id := hblock
  exact hfn.not_live_of_le hb hi hreach (Nat.le_of_lt hhigh)

/-- The definition of one of the two does not stand before a point where the other is live. -/
theorem Ssa.reused_no_clobber (hfn : fn.Ssa) {v w : Local} (h : Reused fn v w) {p p' : Point} {m : Move} (hreach : fn.graph.Reach p)
    (hmove : fn.Moves p m p') : (m.defs w → ¬fn.graph.Live v p') ∧ (m.defs v → ¬fn.graph.Live w p') := by
  obtain ⟨b, hb, k₁, k₂, d, i, hd, hi, rfl, rfl, hlt, hphis, huses⟩ := h
  have hreach' := hreach.move hmove
  have hnext : ∀ {k : Nat} {j : Inst}, b.body[k]? = some j → m.defs j.result → p' = ⟨b.id, k + 1⟩ := by
    intro k j hj hdefs
    have hp := hfn.point_of_defs hb hj hmove hdefs
    cases hmove with
    | inst hc hi' => exact congrArg (fun q : Point => (⟨q.block, q.pos + 1⟩ : Point)) hp
    | edge hpred hsucc hmem =>
      obtain ⟨phi, hphi, heq⟩ := hdefs
      exact absurd heq (hfn.phi_ne hsucc hb hphi (List.mem_of_getElem? hj))
  refine ⟨fun hdefs hlive => ?_, fun hdefs hlive => ?_⟩
  · obtain ⟨-, -, hhigh⟩ := hfn.live_of_reused hb hd hphis huses hreach' hlive
    rw [hnext hi hdefs] at hhigh
    have hhigh' : k₂ + 1 < k₂ := hhigh
    omega
  · rw [hnext hd hdefs] at hreach' hlive
    exact hfn.not_live_of_le hb hi hreach' hlt hlive

end CronoVM.Ir.Func
