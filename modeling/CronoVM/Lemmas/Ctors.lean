import CronoVM.Translator.Ctors
import CronoVM.Lemmas.Emission
import CronoVM.Lib.HasAt
import Mathlib.Data.List.Sort

/-!
# Constructor lemmas

The insertion sort of the constructors keeps every element, sorts by priority and leaves elements of one priority in their order. The
prologue of the entry function ends with a call of each constructor.
-/

namespace CronoVM

open Checked

/-! ## The sort -/

/-- An array is a list of constructors sorted by priority, elements of one priority in the order of the list. -/
structure SortedByPriority (ctors arr : List (Int × Nat)) : Prop where
  perm : arr.Perm ctors
  ascending : arr.Pairwise fun x y => x.1 ≤ y.1
  stable : ∀ p, arr.filter (fun x => x.1 = p) = ctors.filter fun x => x.1 = p

/-- The value is function `id`, under any number of bitcasts. -/
inductive CtorFn.Is : CtorFn → Nat → Prop where
  | func (id : Nat) : CtorFn.Is (.func id) id
  | bitCast {v : CtorFn} {id : Nat} (h : CtorFn.Is v id) : CtorFn.Is (.bitCast v) id

/-- The element lists the function with index `x.2` among those of the module, with priority `x.1`: its `i32`, or 65535. -/
structure CtorElem.Lists (funcs : List Nat) (e : CtorElem) (x : Int × Nat) : Prop where
  fn : ∃ v id, e.fn = some v ∧ v.Is id ∧ funcs[x.2]? = some id ∧ ∀ k < x.2, funcs[k]? ≠ some id
  priority : x.1 = (e.priority.map BitVec.toInt).getD 65535

/-- The constructors of `llvm.global_ctors`, in the order of its elements; an element without a function of the module is none. -/
inductive ListedCtors (funcs : List Nat) : List (Option CtorElem) → List (Int × Nat) → Prop where
  | nil : ListedCtors funcs [] []
  | ctor {e : CtorElem} {x : Int × Nat} {elems : List (Option CtorElem)} {xs : List (Int × Nat)} (h : e.Lists funcs x) :
      ListedCtors funcs elems xs → ListedCtors funcs (some e :: elems) (x :: xs)
  | other {elem : Option CtorElem} {elems : List (Option CtorElem)} {xs : List (Int × Nat)}
      (h : ∀ e x, elem = some e → ¬ e.Lists funcs x) : ListedCtors funcs elems xs → ListedCtors funcs (elem :: elems) xs

namespace CtorsAux

/-! ### What is listed -/

theorem is_iff_strip {v : CtorFn} {id : Nat} : v.Is id ↔ v.strip = .func id := by
  constructor
  · intro h
    induction h with
    | func id => rfl
    | bitCast _ ih => exact ih
  · intro h
    induction v with
    | bitCast v ih => exact .bitCast (ih h)
    | func id' =>
      obtain rfl := CtorFn.func.inj h
      exact .func id'
    | other => nomatch h

theorem idxOf?_iff_first {funcs : List Nat} {id k : Nat} :
    funcs.idxOf? id = some k ↔ funcs[k]? = some id ∧ ∀ j < k, funcs[j]? ≠ some id := by
  rw [List.idxOf?_eq_some_iff]
  constructor
  · rintro ⟨hlt, hk, hbefore⟩
    refine ⟨by rw [List.getElem?_eq_getElem hlt, hk], fun j hj => ?_⟩
    rw [List.getElem?_eq_getElem (Nat.lt_trans hj hlt)]
    exact fun h => hbefore j hj (Option.some.inj h)
  · rintro ⟨hk, hbefore⟩
    obtain ⟨hlt, hk⟩ := List.getElem?_eq_some_iff.mp hk
    refine ⟨hlt, hk, fun j hj h => hbefore j hj ?_⟩
    rw [List.getElem?_eq_getElem (Nat.lt_trans hj hlt), h]

/-- The translator takes the constructor that an element lists. -/
theorem ctorOf?_eq_some_iff {funcs : List Nat} {e : CtorElem} {x : Int × Nat} : ctorOf? funcs e = some x ↔ e.Lists funcs x := by
  obtain ⟨priority, fn⟩ := e
  obtain ⟨p, k⟩ := x
  unfold ctorOf?
  dsimp only
  constructor
  · intro h
    split at h
    · nomatch h
    · rename_i fv
      split at h
      · rename_i id hstrip
        split at h
        · nomatch h
        · rename_i fi hidx
          obtain ⟨rfl, rfl⟩ := Prod.mk.inj (Option.some.inj h)
          exact ⟨⟨fv, id, rfl, is_iff_strip.mpr hstrip, idxOf?_iff_first.mp hidx⟩, by cases priority <;> rfl⟩
      · nomatch h
  · rintro ⟨⟨v, id, rfl, his, hk⟩, rfl⟩
    have hstrip := is_iff_strip.mp his
    have hidx : funcs.idxOf? id = some k := idxOf?_iff_first.mpr hk
    simp only [hstrip, hidx]
    cases priority <;> rfl

theorem listedCtors_filterMap (funcs : List Nat) (elems : List (Option CtorElem)) :
    ListedCtors funcs elems (elems.filterMap fun e => e.bind (ctorOf? funcs)) := by
  induction elems with
  | nil => exact .nil
  | cons elem elems ih =>
    rw [List.filterMap_cons]
    cases elem with
    | none => exact .other (fun e x h => nomatch h) ih
    | some e =>
      rw [Option.bind_some]
      cases hctor : ctorOf? funcs e with
      | none =>
        refine .other (fun e' x he hlists => ?_) ih
        obtain rfl := Option.some.inj he
        rw [ctorOf?_eq_some_iff.mpr hlists] at hctor
        nomatch hctor
      | some x => exact .ctor (ctorOf?_eq_some_iff.mp hctor) ih

/-- No element lists two. -/
theorem ListedCtors.length_le {funcs : List Nat} {elems : List (Option CtorElem)} {ctors : List (Int × Nat)} (h : ListedCtors funcs elems ctors) :
    ctors.length ≤ elems.length := by
  induction h with
  | nil => exact Nat.le_refl 0
  | ctor _ _ ih => exact Nat.succ_le_succ ih
  | other _ _ ih => exact Nat.le_succ_of_le ih

/-! ### The insertion sort -/

/-- The order of the array from its end. -/
def NotBelow (x y : Int × Nat) : Prop := y.1 ≤ x.1

instance : DecidableRel NotBelow := fun x y => inferInstanceAs (Decidable (y.1 ≤ x.1))

instance : Std.Total NotBelow := ⟨fun x y => (Int.le_total x.1 y.1).symm⟩

instance : IsTrans (Int × Nat) NotBelow := ⟨fun _ _ _ hxy hyz => Int.le_trans hyz hxy⟩

variable {x : Int × Nat} {arr ctors : List (Int × Nat)}

theorem ctorShift_eq (x : Int × Nat) (l : List (Int × Nat)) : ctorShift x l = l.orderedInsert NotBelow x := by
  induction l with
  | nil => rfl
  | cons y ys ih =>
    rw [ctorShift, List.orderedInsert_cons]
    by_cases hgt : y.1 > x.1
    · have hbelow : ¬ NotBelow x y := Int.not_le.mpr hgt
      rw [if_pos hgt, if_neg hbelow, ih]
    · have hbelow : NotBelow x y := Int.not_lt.mp hgt
      rw [if_neg hgt, if_pos hbelow]

/-- The elements that the new one goes past have another priority. -/
theorem filter_ctorShift (x : Int × Nat) (l : List (Int × Nat)) (p : Int) :
    (ctorShift x l).filter (fun y => y.1 = p) = (x :: l).filter fun y => y.1 = p := by
  induction l with
  | nil => rfl
  | cons y ys ih =>
    rw [ctorShift]
    by_cases hgt : y.1 > x.1
    · rw [if_pos hgt]
      by_cases hx : x.1 = p
      · have hy : ¬ y.1 = p := by omega
        rw [List.filter_cons_of_neg (by simpa using hy), ih, List.filter_cons_of_pos (by simpa using hx),
          List.filter_cons_of_pos (by simpa using hx), List.filter_cons_of_neg (by simpa using hy)]
      · rw [List.filter_cons_of_neg (a := x) (by simpa using hx)] at ih ⊢
        by_cases hy : y.1 = p
        · rw [List.filter_cons_of_pos (by simpa using hy), List.filter_cons_of_pos (by simpa using hy), ih]
        · rw [List.filter_cons_of_neg (by simpa using hy), List.filter_cons_of_neg (by simpa using hy), ih]
    · rw [if_neg hgt]

/-- One round of the sort. -/
theorem SortedByPriority.insert (h : SortedByPriority ctors arr) (x : Int × Nat) : SortedByPriority (ctors ++ [x]) (ctorInsert arr x) := by
  have hdescending : arr.reverse.Pairwise NotBelow := List.pairwise_reverse.mpr h.ascending
  refine ⟨?_, ?_, fun p => ?_⟩
  · unfold ctorInsert
    rw [ctorShift_eq]
    refine (List.reverse_perm _).trans ((List.perm_orderedInsert NotBelow x _).trans ?_)
    refine (List.Perm.cons x ((List.reverse_perm arr).trans h.perm)).trans ?_
    exact List.perm_append_singleton x ctors |>.symm
  · unfold ctorInsert
    rw [ctorShift_eq]
    exact List.pairwise_reverse.mpr (List.Pairwise.orderedInsert x _ hdescending)
  · unfold ctorInsert
    rw [List.filter_reverse, filter_ctorShift, ← List.filter_reverse, List.reverse_cons, List.reverse_reverse, List.filter_append,
      h.stable p, List.filter_append]

theorem sorted_foldl (funcs : List Nat) (elems : List (Option CtorElem)) (h : SortedByPriority ctors arr) :
    SortedByPriority (ctors ++ elems.filterMap fun e => e.bind (ctorOf? funcs))
      (elems.foldl (fun arr e => match e.bind (ctorOf? funcs) with | some x => ctorInsert arr x | none => arr) arr) := by
  induction elems generalizing ctors arr with
  | nil => simpa using h
  | cons e elems ih =>
    rw [List.foldl_cons, List.filterMap_cons]
    cases hentry : e.bind (ctorOf? funcs) with
    | none => exact ih h
    | some x =>
      dsimp only
      rw [← List.singleton_append, ← List.append_assoc]
      exact ih (SortedByPriority.insert h x)

theorem sortedCtors_sorted (funcs : List Nat) (elems : List (Option CtorElem)) :
    SortedByPriority (elems.filterMap fun e => e.bind (ctorOf? funcs)) (sortedCtors funcs elems) := by
  have hempty : SortedByPriority [] [] := ⟨.nil, .nil, fun _ => rfl⟩
  exact sorted_foldl funcs elems hempty

/-! ## The prologue -/

/-- The call of constructor `c`. -/
def ctorCall (c : Nat) : Word := encI24 .call (BitVec.ofNat 32 (cvmFnSlot c))

variable {cg : Cg} {ctorIdx : List Nat}

theorem wp_cgCtorCalls {Q : Unit → Cg → Prop} {E : CgError → Cg → Prop} :
    Exec.wp (cgCtorCalls ctorIdx) Q E cg ↔ Q () (cg.emit (ctorIdx.map ctorCall)) := by
  induction ctorIdx generalizing cg with
  | nil =>
    have hnothing : cg.emit [] = cg := by
      unfold Cg.emit
      rw [List.append_nil]
    rw [cgCtorCalls, Exec.wp_pure, List.map_nil, hnothing]
  | cons c cs ih =>
    rw [cgCtorCalls, Exec.wp_bind, wp_cgEmit, ih, Cg.emit_emit]
    rfl

/-- The prologue of the entry ends with the calls, and starts with something else. -/
theorem cgPrologue_code {cg' : Cg} (hrun : cgPrologue true ctorIdx cg = .val () cg') :
    ∃ front, 0 < front.length ∧ cg'.code = cg.code ++ (front ++ ctorIdx.map ctorCall) := by
  have hcalls : ∀ front : List Word, 0 < front.length →
      Exec.wp (Exec.when (true = true ∧ ctorIdx.length > 0) (cgCtorCalls ctorIdx))
        (fun _ cg' => ∃ front, 0 < front.length ∧ cg'.code = cg.code ++ (front ++ ctorIdx.map ctorCall)) (fun _ _ => True)
        (cg.emit front) := by
    intro front hfront
    unfold Exec.when
    by_cases hany : true = true ∧ ctorIdx.length > 0
    · rw [if_pos hany, wp_cgCtorCalls, Cg.emit_emit]
      exact ⟨front, hfront, rfl⟩
    · rw [if_neg hany, Exec.wp_pure]
      have hnone : ¬ ctorIdx.length > 0 := fun hpos => hany ⟨rfl, hpos⟩
      have hnil : ctorIdx = [] := List.length_eq_zero_iff.mp (by omega)
      refine ⟨front, hfront, ?_⟩
      rw [hnil, List.map_nil, List.append_nil]
      rfl
  have hwp : Exec.wp (cgPrologue true ctorIdx)
      (fun _ cg' => ∃ front, 0 < front.length ∧ cg'.code = cg.code ++ (front ++ ctorIdx.map ctorCall)) (fun _ _ => True) cg := by
    unfold cgPrologue cgSpSub
    rw [Exec.wp_bind, Exec.wp_get, Exec.wp_bind]
    by_cases hframe : BitVec.ofNat 32 cg.frameBytes ≠ 0
    · rw [Exec.when, if_pos hframe, Exec.wp_bind, cgMoviScratch, wp_cgEmitLoadConst32, wp_cgEmit, Exec.wp_bind, wp_cgEmit, Cg.emit_emit,
        Cg.emit_emit]
      refine hcalls _ ?_
      rw [List.length_append]
      exact Nat.lt_of_lt_of_le Nat.zero_lt_one (Nat.le_add_left ..)
    · rw [Exec.when, if_neg hframe, Exec.wp_pure, Exec.wp_bind, wp_cgEmit]
      exact hcalls _ Nat.zero_lt_one
  exact Exec.of_wp hwp hrun

end CtorsAux

end CronoVM
