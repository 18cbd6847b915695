import Mathlib.Data.List.Chain
import Mathlib.Algebra.BigOperators.Group.List.Basic
import Mathlib.Algebra.Ring.Nat

/-!
# Blocks that tile a range

A list of blocks, one behind the other from an address on. A block is split in two or two neighbours are joined by a change of the list,
and the blocks around stay where they are.
-/

namespace CronoVM.Tiling

/-- A block of some size, in use or free. -/
structure Chunk where
  size : Nat
  free : Bool
  deriving DecidableEq, Repr

/-- The size of the blocks together. -/
def span (bs : List Chunk) : Nat := (bs.map Chunk.size).sum

/-- The blocks with their addresses, the first one at `a`. -/
def place (a : Nat) : List Chunk → List (Nat × Chunk)
  | [] => []
  | b :: bs => (a, b) :: place (a + b.size) bs

/-- Two free blocks are not neighbours. -/
def Coalesced (bs : List Chunk) : Prop := bs.IsChain fun x y => ¬(x.free = true ∧ y.free = true)

variable {a : Nat} {b : Chunk} {bs cs : List Chunk} {x y : Nat × Chunk}

@[simp] theorem span_nil : span [] = 0 := rfl

@[simp] theorem span_cons (b : Chunk) (bs : List Chunk) : span (b :: bs) = b.size + span bs := List.sum_cons

@[simp] theorem span_append (bs cs : List Chunk) : span (bs ++ cs) = span bs + span cs := by
  rw [span, List.map_append, List.sum_append]
  rfl

theorem place_append (a : Nat) (bs cs : List Chunk) : place a (bs ++ cs) = place a bs ++ place (a + span bs) cs := by
  induction bs generalizing a with
  | nil => rfl
  | cons b bs ih => rw [List.cons_append, place, ih, place, span_cons, Nat.add_assoc, List.cons_append]

/-- A block in the middle. -/
theorem place_middle (a : Nat) (bs : List Chunk) (b : Chunk) (cs : List Chunk) :
    place a (bs ++ b :: cs) = place a bs ++ (a + span bs, b) :: place (a + span bs + b.size) cs := place_append a bs (b :: cs)

theorem mem_place_middle : x ∈ place a (bs ++ b :: cs) ↔
    x ∈ place a bs ∨ x = (a + span bs, b) ∨ x ∈ place (a + span bs + b.size) cs := by
  rw [place_middle, List.mem_append, List.mem_cons]

/-- A placed block lies in the range. -/
theorem place_bounds (h : x ∈ place a bs) : a ≤ x.1 ∧ x.1 + x.2.size ≤ a + span bs := by
  induction bs generalizing a with
  | nil => nomatch h
  | cons b bs ih =>
    rw [span_cons]
    rcases List.mem_cons.mp h with rfl | h
    · exact ⟨Nat.le_refl a, by dsimp only; omega⟩
    · obtain ⟨hlo, hhi⟩ := ih h
      exact ⟨by omega, by omega⟩

/-- A placed block is one of the blocks. -/
theorem mem_of_place (h : x ∈ place a bs) : x.2 ∈ bs := by
  induction bs generalizing a with
  | nil => nomatch h
  | cons b bs ih =>
    rcases List.mem_cons.mp h with rfl | h
    · exact List.mem_cons_self
    · exact List.mem_cons_of_mem b (ih h)

/-- Where a placed block stands. -/
theorem exists_split (h : x ∈ place a bs) : ∃ before behind, bs = before ++ x.2 :: behind ∧ x.1 = a + span before := by
  induction bs generalizing a with
  | nil => nomatch h
  | cons b bs ih =>
    rcases List.mem_cons.mp h with rfl | h
    · exact ⟨[], bs, rfl, rfl⟩
    · obtain ⟨before, behind, heq, haddr⟩ := ih h
      exact ⟨b :: before, behind, by rw [heq, List.cons_append], by rw [haddr, span_cons, Nat.add_assoc]⟩

/-- Two placed blocks are the same or apart. -/
theorem place_apart (hx : x ∈ place a bs) (hy : y ∈ place a bs) : x = y ∨ x.1 + x.2.size ≤ y.1 ∨ y.1 + y.2.size ≤ x.1 := by
  induction bs generalizing a with
  | nil => nomatch hx
  | cons b bs ih =>
    rcases List.mem_cons.mp hx with rfl | hx
    · rcases List.mem_cons.mp hy with rfl | hy
      · exact Or.inl rfl
      · exact Or.inr (Or.inl (place_bounds hy).1)
    · rcases List.mem_cons.mp hy with rfl | hy
      · exact Or.inr (Or.inr (place_bounds hx).1)
      · exact ih hx hy

/-- Blocks that are all free and have been coalesced are one block. -/
theorem Coalesced.single (h : Coalesced bs) (hfree : ∀ b ∈ bs, b.free = true) : bs = [] ∨ bs = [⟨span bs, true⟩] := by
  cases bs with
  | nil => exact Or.inl rfl
  | cons b bs =>
    cases bs with
    | nil =>
      have hb := hfree b List.mem_cons_self
      refine Or.inr ?_
      rw [span_cons, span_nil, Nat.add_zero]
      cases b
      exact congrArg (fun f => [Chunk.mk _ f]) hb
    | cons c bs =>
      have hb := hfree b List.mem_cons_self
      have hc := hfree c (List.mem_cons_of_mem b List.mem_cons_self)
      exact absurd ⟨hb, hc⟩ (List.isChain_cons_cons.mp h).1

/-- The neighbours of a free block are in use. -/
theorem Coalesced.behind (h : Coalesced (bs ++ b :: cs)) (hb : b.free = true) : ∀ c ∈ cs.head?, c.free = false := by
  intro c hc
  have hlink := (List.isChain_cons.mp (List.isChain_append.mp h).2.1).1 c hc
  exact eq_false_of_ne_true fun hfree => hlink ⟨hb, hfree⟩

theorem Coalesced.before (h : Coalesced (bs ++ b :: cs)) (hb : b.free = true) : ∀ c ∈ bs.getLast?, c.free = false := by
  intro c hc
  have hlink := (List.isChain_append.mp h).2.2 c hc b rfl
  exact eq_false_of_ne_true fun hfree => hlink ⟨hfree, hb⟩

/-- One block or more in place of a block, none of them beside another free one. -/
theorem Coalesced.replace {ds : List Chunk} (h : Coalesced (bs ++ b :: cs)) (hds : Coalesced ds) (hne : ds ≠ [])
    (hbefore : ∀ c ∈ bs.getLast?, ∀ d ∈ ds.head?, ¬(c.free = true ∧ d.free = true))
    (hbehind : ∀ d ∈ ds.getLast?, ∀ c ∈ cs.head?, ¬(d.free = true ∧ c.free = true)) : Coalesced (bs ++ (ds ++ cs)) := by
  unfold Coalesced at h hds ⊢
  rw [List.isChain_append] at h
  obtain ⟨hbs, hcs, -⟩ := h
  rw [List.isChain_append, List.isChain_append]
  refine ⟨hbs, ⟨hds, hcs.tail, hbehind⟩, fun c hc d hd => hbefore c hc d ?_⟩
  cases ds with
  | nil => exact absurd rfl hne
  | cons e ds => exact hd

/-! ## Blocks in use -/

/-- The blocks in use with their addresses. -/
def used (a : Nat) (bs : List Chunk) : List (Nat × Chunk) := (place a bs).filter fun x => !x.2.free

theorem mem_used : x ∈ used a bs ↔ x ∈ place a bs ∧ x.2.free = false := by
  rw [used, List.mem_filter, Bool.not_eq_true']

theorem used_append (a : Nat) (bs cs : List Chunk) : used a (bs ++ cs) = used a bs ++ used (a + span bs) cs := by
  rw [used, place_append, List.filter_append]
  rfl

/-- Among free blocks none is in use. -/
theorem used_eq_nil (h : ∀ b ∈ bs, b.free = true) : used a bs = [] := by
  refine List.filter_eq_nil_iff.mpr fun x hx => ?_
  rw [h _ (mem_of_place hx)]
  exact Bool.false_ne_true

theorem used_cons_used (h : b.free = false) : used a (b :: bs) = (a, b) :: used (a + b.size) bs := by
  refine List.filter_cons_of_pos ?_
  rw [h]
  rfl

theorem used_cons_free (h : b.free = true) : used a (b :: bs) = used (a + b.size) bs := by
  refine List.filter_cons_of_neg ?_
  rw [h]
  exact Bool.false_ne_true

end CronoVM.Tiling
