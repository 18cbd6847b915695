import Mathlib.Data.List.Basic
import Mathlib.Tactic.Common

/-!
# What stands where in a list

`HasAt l p x` says that `x` is the part of `l` that starts at `p`. A file that is a concatenation has each of its pieces at the sum of
the lengths before it, and a reader finds there what the writer put.
-/

namespace CronoVM

variable {α β : Type}

/-- `x` stands in `l` at position `p`. -/
def HasAt (l : List α) (p : Nat) (x : List α) : Prop := ∃ a b, l = a ++ (x ++ b) ∧ a.length = p

namespace HasAt

variable {l x y : List α} {p q : Nat}

/-- A list is at its start. -/
theorem whole (l : List α) : HasAt l 0 l := ⟨[], [], by simp, rfl⟩

/-- The first part of a list. -/
theorem prefix_part (x y : List α) : HasAt (x ++ y) 0 x := ⟨[], y, rfl, rfl⟩

/-- The second part of a list. -/
theorem suffix_part (x y : List α) : HasAt (x ++ y) x.length y := ⟨x, [], by simp, rfl⟩

/-- A part of a part. -/
theorem trans (h : HasAt l p x) (hy : HasAt x q y) : HasAt l (p + q) y := by
  obtain ⟨a, b, rfl, rfl⟩ := h
  obtain ⟨c, d, rfl, rfl⟩ := hy
  exact ⟨a ++ c, d ++ b, by simp, by simp⟩

/-- The first half of a part. -/
theorem left (h : HasAt l p (x ++ y)) : HasAt l p x := h.trans (prefix_part x y)

/-- The second half of a part. -/
theorem right (h : HasAt l p (x ++ y)) : HasAt l (p + x.length) y := h.trans (suffix_part x y)

/-- A part without its first element. -/
theorem tail {a : α} (h : HasAt l p (a :: x)) : HasAt l (p + 1) x := h.right (x := [a])

/-- A part does not reach past the end. -/
theorem length_le (h : HasAt l p x) : p + x.length ≤ l.length := by
  obtain ⟨a, b, rfl, rfl⟩ := h
  simp only [List.length_append]
  omega

/-- An element of the part is an element of the list. -/
theorem getElem? (h : HasAt l p x) {k : Nat} (hk : k < x.length) : l[p + k]? = x[k]? := by
  obtain ⟨a, b, rfl, rfl⟩ := h
  rw [List.getElem?_append_right (Nat.le_add_right _ _), Nat.add_sub_cancel_left, List.getElem?_append_left hk]

/-- The first element of a part. -/
theorem head {a : α} (h : HasAt l p (a :: x)) : l[p]? = some a := h.getElem? (k := 0) (Nat.zero_lt_succ _)

/-- The elements of a part. -/
theorem getD (h : HasAt l p x) {k : Nat} (hk : k < x.length) (d : α) : l.getD (p + k) d = x.getD k d := by
  rw [List.getD_eq_getElem?_getD, List.getD_eq_getElem?_getD, h.getElem? hk]

/-- A part can be cut out. -/
theorem take_drop (h : HasAt l p x) : (l.drop p).take x.length = x := by
  obtain ⟨a, b, rfl, rfl⟩ := h
  simp

/-- The part from its place `k` on. -/
theorem take_drop_add (h : HasAt l p x) (k : Nat) : (l.drop (p + k)).take (x.length - k) = x.drop k := by
  rw [← List.drop_drop, ← List.drop_take, h.take_drop]

/-- A part is told by its elements. -/
theorem of_getElem? (hlen : p + x.length ≤ l.length) (h : ∀ k < x.length, l[p + k]? = x[k]?) : HasAt l p x := by
  have htake : (l.take p).length = p := by
    rw [List.length_take]
    omega
  refine ⟨l.take p, l.drop (p + x.length), ?_, htake⟩
  apply List.ext_getElem?
  intro i
  by_cases hlt : i < p
  · rw [List.getElem?_append_left (by omega), List.getElem?_take_of_lt hlt]
  · rw [List.getElem?_append_right (by omega), htake]
    by_cases hin : i - p < x.length
    · rw [List.getElem?_append_left hin, ← h _ hin]
      congr 1
      omega
    · rw [List.getElem?_append_right (by omega), List.getElem?_drop]
      congr 1
      omega

/-- Element `i` of a list that is written in blocks of one length. -/
theorem flatMap {f : β → List α} {n : Nat} {bs : List β} (hf : ∀ b ∈ bs, (f b).length = n) {i : Nat} (hi : i < bs.length) :
    HasAt (bs.flatMap f) (i * n) (f bs[i]) := by
  refine ⟨(bs.take i).flatMap f, (bs.drop (i + 1)).flatMap f, ?_, ?_⟩
  · rw [← List.flatMap_cons, ← List.flatMap_append, List.getElem_cons_drop, List.take_append_drop]
  · rw [List.length_flatMap, List.map_congr_left fun b hb => hf b (List.mem_of_mem_take hb), List.map_const', List.sum_replicate_nat,
      List.length_take, Nat.min_eq_left (Nat.le_of_lt hi)]

end HasAt

/-- The length of a list that is written in blocks of one length. -/
theorem length_flatMap_const {f : β → List α} {n : Nat} {bs : List β} (hf : ∀ b ∈ bs, (f b).length = n) :
    (bs.flatMap f).length = bs.length * n := by
  rw [List.length_flatMap, List.map_congr_left hf, List.map_const', List.sum_replicate_nat]

end CronoVM
