import Mathlib.Algebra.Order.BigOperators.Group.List
import Mathlib.Algebra.Order.Ring.Nat
import Mathlib.Data.List.Basic
import Mathlib.Tactic.Common

/-!
# Data flow

Cells are recomputed one after another, each from the cells as they are then, until a whole sweep changes none. Where the cells only
rise and a rank bounds how often they can, the sweeps end, and at the least cells that satisfy the equations.

A program is points with labelled moves between them, each of which reads values and then writes some. A value is live at a point when it is
read on a path from there before it is written. In a strict program no value is read before it is written; the values are mapped to
registers well if no write of another value in the register of a live one is possible.
-/

namespace CronoVM.Sweeps

variable {ι α : Type*}

/-! ## Ranks -/

/-- The ranks of the cells. -/
def totalRank (rank : α → Nat) (cells : List ι) (s : ι → α) : Nat := (cells.map fun i => rank (s i)).sum

theorem totalRank_lt [PartialOrder α] {rank : α → Nat} (hrank : StrictMono rank) {s t : ι → α} (hle : s ≤ t) {cells : List ι}
    (h : ∃ i ∈ cells, s i < t i) : totalRank rank cells s < totalRank rank cells t := by
  obtain ⟨i, hi, hlt⟩ := h
  exact List.sum_lt_sum _ _ (fun j _ => hrank.monotone (hle j)) ⟨i, hi, hrank hlt⟩

theorem totalRank_le {rank : α → Nat} {bound : Nat} (hbound : ∀ x, rank x ≤ bound) (cells : List ι) (s : ι → α) :
    totalRank rank cells s ≤ cells.length * bound := by
  have hsum := List.sum_le_card_nsmul (cells.map fun i => rank (s i)) bound fun x hx => by
    obtain ⟨i, -, rfl⟩ := List.mem_map.mp hx
    exact hbound (s i)
  rwa [List.length_map, Nat.nsmul_eq_mul] at hsum

/-! ## Sweeps -/

section definitions

variable [DecidableEq ι] [DecidableEq α] (f : (ι → α) → ι → α)

/-- One sweep over a list of cells, and whether it changed any. -/
def sweep : List ι → (ι → α) → (ι → α) × Bool
  | [], s => (s, false)
  | i :: rest, s =>
    let r := sweep rest (Function.update s i (f s i))
    (r.1, decide (f s i ≠ s i) || r.2)

/-- Sweeps until one changes nothing; none when the fuel is used up. -/
def iterate (cells : List ι) : Nat → (ι → α) → Option (ι → α)
  | 0, _ => none
  | fuel + 1, s =>
    let r := sweep f cells s
    if r.2 = true then iterate cells fuel r.1 else some r.1

end definitions

variable [DecidableEq ι] {f : (ι → α) → ι → α} {s t : ι → α} {cells : List ι}

/-- A sweep that changes nothing has found a solution. -/
theorem sweep_unchanged [DecidableEq α] (h : (sweep f cells s).2 = false) : (sweep f cells s).1 = s ∧ ∀ i ∈ cells, f s i = s i := by
  induction cells generalizing s with
  | nil => exact ⟨rfl, fun i hi => absurd hi List.not_mem_nil⟩
  | cons i rest ih =>
    obtain ⟨hi, hrest⟩ := Bool.or_eq_false_iff.mp h
    have heq : f s i = s i := not_not.mp (of_decide_eq_false hi)
    have hsame : Function.update s i (f s i) = s := by rw [heq, Function.update_eq_self]
    rw [hsame] at hrest
    obtain ⟨hfirst, hcells⟩ := ih hrest
    refine ⟨(congrArg (fun t => (sweep f rest t).1) hsame).trans hfirst, fun j hj => ?_⟩
    rcases List.mem_cons.mp hj with rfl | hj
    · exact heq
    · exact hcells j hj

/-! ## Rising cells -/

section order

variable [PartialOrder α]

/-- Recomputing a cell does not lower it. -/
def Rising (f : (ι → α) → ι → α) (s : ι → α) : Prop := ∀ i, s i ≤ f s i

/-- The cells are at least what they would be recomputed to. -/
def Closed (f : (ι → α) → ι → α) (t : ι → α) : Prop := ∀ i, f t i ≤ t i

theorem le_update {i : ι} {x : α} (h : s i ≤ x) : s ≤ Function.update s i x := by
  intro j
  by_cases hj : j = i
  · rw [hj, Function.update_self]
    exact h
  · rw [Function.update_of_ne hj]

/-- One cell is recomputed. -/
theorem Rising.visit (hf : Monotone f) (h : Rising f s) (i : ι) : Rising f (Function.update s i (f s i)) := by
  intro j
  have hle : f s j ≤ f (Function.update s i (f s i)) j := hf (le_update (h i)) j
  by_cases hj : j = i
  · subst hj
    rw [Function.update_self]
    exact hle
  · rw [Function.update_of_ne hj]
    exact (h j).trans hle

theorem Closed.visit (hf : Monotone f) (ht : Closed f t) (hle : s ≤ t) (i : ι) : Function.update s i (f s i) ≤ t := by
  intro j
  by_cases hj : j = i
  · subst hj
    rw [Function.update_self]
    exact (hf hle j).trans (ht j)
  · rw [Function.update_of_ne hj]
    exact hle j

variable [DecidableEq α]

/-- A sweep raises the cells and stays below every closed assignment. -/
theorem sweep_rising (hf : Monotone f) (cells : List ι) (h : Rising f s) :
    s ≤ (sweep f cells s).1 ∧ Rising f (sweep f cells s).1 ∧ ∀ t, Closed f t → s ≤ t → (sweep f cells s).1 ≤ t := by
  induction cells generalizing s with
  | nil => exact ⟨le_refl s, h, fun t _ hle => hle⟩
  | cons i rest ih =>
    obtain ⟨hle, hrising, hleast⟩ := ih (h.visit hf i)
    exact ⟨(le_update (h i)).trans hle, hrising, fun t ht hst => hleast t ht (ht.visit hf hst i)⟩

/-- A sweep that changes a cell raises one. -/
theorem sweep_changed (hf : Monotone f) (hrising : Rising f s) (h : (sweep f cells s).2 = true) :
    ∃ i ∈ cells, s i < (sweep f cells s).1 i := by
  induction cells generalizing s with
  | nil => nomatch h
  | cons i rest ih =>
    have hvisit := hrising.visit hf i
    obtain ⟨hle, -, -⟩ := sweep_rising hf rest hvisit
    by_cases hi : f s i = s i
    · have hsame : Function.update s i (f s i) = s := by rw [hi, Function.update_eq_self]
      have hrest : (sweep f rest (Function.update s i (f s i))).2 = true := (Bool.or_eq_true_iff.mp h).resolve_left (by simp [hi])
      obtain ⟨j, hj, hlt⟩ := ih hvisit hrest
      rw [hsame] at hlt
      refine ⟨j, List.mem_cons_of_mem i hj, ?_⟩
      show s j < (sweep f rest (Function.update s i (f s i))).1 j
      rw [hsame]
      exact hlt
    · have hnew : Function.update s i (f s i) i = f s i := Function.update_self ..
      exact ⟨i, List.mem_cons_self, (lt_of_le_of_ne (hrising i) (Ne.symm hi)).trans_le (hnew ▸ hle i)⟩

/-- The cells found are the least closed ones, and solve the equations. -/
theorem iterate_least (hf : Monotone f) {fuel : Nat} {r : ι → α} (hrising : Rising f s) (h : iterate f cells fuel s = some r) :
    (∀ i ∈ cells, f r i = r i) ∧ s ≤ r ∧ ∀ t, Closed f t → s ≤ t → r ≤ t := by
  induction fuel generalizing s with
  | zero => nomatch h
  | succ fuel ih =>
    obtain ⟨hle, hnext, hbelow⟩ := sweep_rising hf cells hrising
    unfold iterate at h
    dsimp only at h
    split at h
    · obtain ⟨hsolves, hup, hleast⟩ := ih hnext h
      exact ⟨hsolves, hle.trans hup, fun t ht hst => hleast t ht (hbelow t ht hst)⟩
    · rename_i hunchanged
      obtain ⟨hsame, hsolves⟩ := sweep_unchanged (Bool.eq_false_of_not_eq_true hunchanged)
      obtain rfl := Option.some.inj h
      rw [hsame]
      exact ⟨hsolves, le_refl s, fun t _ hst => hst⟩

/-! ## Termination -/

/-- With a sweep for each time a cell can rise, and one more, the iteration ends. -/
theorem iterate_exists (hf : Monotone f) {rank : α → Nat} (hrank : StrictMono rank) {bound : Nat} (hbound : ∀ x, rank x ≤ bound)
    {fuel : Nat} (hrising : Rising f s) (hfuel : cells.length * bound < fuel + totalRank rank cells s) :
    ∃ r, iterate f cells fuel s = some r := by
  induction fuel generalizing s with
  | zero => exact absurd (totalRank_le hbound cells s) (by omega)
  | succ fuel ih =>
    unfold iterate
    dsimp only
    split
    · rename_i hchanged
      obtain ⟨hle, hnext, -⟩ := sweep_rising hf cells hrising
      have hlt := totalRank_lt hrank hle (sweep_changed hf hrising hchanged)
      exact ih hnext (by omega)
    · exact ⟨_, rfl⟩

end order

end CronoVM.Sweeps

namespace CronoVM.Flow

variable {P L V K : Type*}

/-- The moves of a program, what they read and write, where it begins, and the values given there. -/
structure Graph (P L V : Type*) where
  start : P
  given : V → Prop
  move : P → L → P → Prop
  uses : L → V → Prop
  defs : L → V → Prop

namespace Graph

variable (G : Graph P L V)

/-- Points on paths from the start. -/
inductive Reach : P → Prop
  | start : Reach G.start
  | move {p p' : P} {l : L} : Reach p → G.move p l p' → Reach p'

/-- The value is read on a path from the point before it is written. -/
inductive Live (v : V) : P → Prop
  | use {p p' : P} {l : L} : G.move p l p' → G.uses l v → Live v p
  | pass {p p' : P} {l : L} : G.move p l p' → ¬G.defs l v → Live v p' → Live v p

/-- The value is not written on some path to the point. -/
inductive Unset (v : V) : P → Prop
  | start : ¬G.given v → Unset v G.start
  | move {p p' : P} {l : L} : Unset v p → G.move p l p' → ¬G.defs l v → Unset v p'

/-- Each read of a value comes after its write, whatever the path. -/
def Strict : Prop := ∀ {p p' : P} {l : L} {v : V}, G.move p l p' → G.uses l v → ¬G.Unset v p

/-- The same moves, with the values by their registers. -/
def image (f : V → Option K) : Graph P L K where
  start := G.start
  given k := ∃ v, G.given v ∧ f v = some k
  move := G.move
  uses l k := ∃ v, G.uses l v ∧ f v = some k
  defs l k := ∃ v, G.defs l v ∧ f v = some k

/-- No move writes another value in the register of a value that is live after it. -/
def NoClobber (f : V → Option K) : Prop :=
  ∀ {p p' : P} {l : L} {v w : V} {k : K}, G.Reach p → G.move p l p' → G.defs l w → G.Live v p' → f v = some k → f w = some k → v = w

variable {G} {v : V} {p p' : P} {l : L}

/-- A live value has been written on every path. -/
theorem Live.not_unset (hstrict : G.Strict) (h : G.Live v p) : ¬G.Unset v p := by
  induction h with
  | use hmove huse => exact hstrict hmove huse
  | pass hmove hdef _ ih => exact fun hunset => ih (hunset.move hmove hdef)

/-- A point is reached without the value or the value has been written on the way. -/
theorem Reach.unset_or (h : G.Reach p) (hgiven : ¬G.given v) :
    G.Unset v p ∨ ∃ q q' l, G.Unset v q ∧ G.move q l q' ∧ G.defs l v := by
  induction h with
  | start => exact Or.inl (.start hgiven)
  | @move p p' l _ hmove ih =>
    rcases ih with hunset | hwritten
    · by_cases hdef : G.defs l v
      · exact Or.inr ⟨p, p', l, hunset, hmove, hdef⟩
      · exact Or.inl (hunset.move hmove hdef)
    · exact Or.inr hwritten

/-- The register of a live value is live. -/
theorem Live.image {f : V → Option K} (hclobber : G.NoClobber f) (hreach : G.Reach p) (h : G.Live v p) {k : K} (hk : f v = some k) :
    (G.image f).Live k p := by
  induction h with
  | use hmove huse => exact .use hmove ⟨v, huse, hk⟩
  | pass hmove hdef hlive ih =>
    refine .pass hmove ?_ (ih (hreach.move hmove))
    rintro ⟨w, hw, hwk⟩
    exact hdef (hclobber hreach hmove hw hlive hk hwk ▸ hw)

end Graph

end CronoVM.Flow
