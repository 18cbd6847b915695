import Mathlib.Data.List.Nodup
import CronoVM.Lemmas.Alloc

/-!
# Allocation and release

The heap between two calls has no gap, and its free list is that of the free blocks. A call opens a gap in front of a block, lets it take
the block and free neighbours in, and fills it again.
-/

namespace CronoVM

open Links Tiling

variable {start n z : Nat} {s s' : AllocState} {pre post blocks : List Chunk} {fl fl' : List Nat} {b c d : Chunk} {x : Nat × Chunk}

/-! ## Gaps with all free blocks listed -/

/-- The blocks around a gap that takes the one behind it in. -/
theorem mem_around_takeNext (hpre : ∀ b ∈ pre, 0 < b.size) (hc : 0 < c.size) : x ∈ around start pre (n + c.size) post ↔
    x ∈ around start pre n (c :: post) ∧ x.1 ≠ start + span pre + n := by
  have hplace : around start pre n (c :: post) = place start pre ++ (start + span pre + n, c) :: place (start + span pre + n + c.size) post := rfl
  rw [hplace, around, ← Nat.add_assoc, List.mem_append, List.mem_append, List.mem_cons]
  constructor
  · intro hx
    rcases hx with hx | hx
    · have hbounds := place_bounds hx
      have hpos := hpre _ (mem_of_place hx)
      exact ⟨Or.inl hx, by omega⟩
    · have hbounds := place_bounds hx
      exact ⟨Or.inr (Or.inr hx), by omega⟩
  · rintro ⟨hx, hne⟩
    rcases hx with hx | hx | hx
    · exact Or.inl hx
    · exact absurd (congrArg Prod.fst hx) hne
    · exact Or.inr hx

/-- The blocks around a gap that takes the one before it in. -/
theorem mem_around_takePrev (hpre : ∀ b ∈ pre, 0 < b.size) (hd : 0 < d.size) : x ∈ around start pre (d.size + n) post ↔
    x ∈ around start (pre ++ [d]) n post ∧ x.1 ≠ start + span pre := by
  have hbehind : start + span (pre ++ [d]) + n = start + span pre + (d.size + n) := by
    rw [span_append, span_cons, span_nil]
    omega
  have hplace : around start (pre ++ [d]) n post =
      place start pre ++ (start + span pre, d) :: place (start + span pre + (d.size + n)) post := by
    rw [around, place_append, hbehind, List.append_assoc]
    rfl
  rw [hplace, around, List.mem_append, List.mem_append, List.mem_cons]
  constructor
  · intro hx
    rcases hx with hx | hx
    · have hbounds := place_bounds hx
      have hpos := hpre _ (mem_of_place hx)
      exact ⟨Or.inl hx, by omega⟩
    · have hbounds := place_bounds hx
      exact ⟨Or.inr (Or.inr hx), by omega⟩
  · rintro ⟨hx, hne⟩
    rcases hx with hx | hx | hx
    · exact Or.inl hx
    · exact absurd (congrArg Prod.fst hx) hne
    · exact Or.inr hx

/-- The blocks around a gap that is filled from its beginning. -/
theorem mem_around_fill (hz : z ≤ n) (f : Bool) : x ∈ around start (pre ++ [⟨z, f⟩]) (n - z) post ↔
    x = (start + span pre, ⟨z, f⟩) ∨ x ∈ around start pre n post := by
  have hbehind : start + span (pre ++ [⟨z, f⟩]) + (n - z) = start + span pre + n := by
    rw [span_append, span_cons, span_nil]
    dsimp only
    omega
  rw [around, around, hbehind, place_append, List.append_assoc, List.mem_append, List.mem_append, List.mem_append]
  exact ⟨fun hx => hx.elim (fun hx => Or.inr (Or.inl hx)) fun hx => hx.elim (fun hx => Or.inl (List.mem_singleton.mp hx))
    fun hx => Or.inr (Or.inr hx), fun hx => hx.elim (fun hx => Or.inr (Or.inl (List.mem_singleton.mpr hx)))
    fun hx => hx.elim Or.inl fun hx => Or.inr (Or.inr hx)⟩

/-- A gap around which the free blocks are those of the free list. -/
structure Hole (start : Nat) (s : AllocState) (pre : List Chunk) (n : Nat) (post : List Chunk) (fl : List Nat) : Prop
    extends Gap start s pre n post fl where
  free_iff : ∀ a, a ∈ fl ↔ ∃ b, (a, b) ∈ around start pre n post ∧ b.free = true

section hole

variable (h : Hole start s pre n post fl)
include h

theorem Hole.pos_pre : ∀ b ∈ pre, 0 < b.size := fun b hb => by
  have hsize := h.sizes b (List.mem_append_left _ hb)
  omega

/-- Blocks at one address are one block. -/
theorem Hole.unique {a : Nat} (hb : (a, b) ∈ around start pre n post) (hc : (a, c) ∈ around start pre n post) : b = c := by
  have hbsize := h.size hb
  have hcsize := h.size hc
  rcases around_apart hb hc with heq | hlt | hlt
  · exact congrArg Prod.snd heq
  · dsimp only at hlt hbsize
    omega
  · dsimp only at hlt hcsize
    omega

/-- The free list holds a block that is free. -/
theorem Hole.mem_iff {a : Nat} (hb : (a, b) ∈ around start pre n post) : a ∈ fl ↔ b.free = true := by
  refine (h.free_iff a).trans ⟨fun ⟨c, hc, hfree⟩ => ?_, fun hfree => ⟨b, hb, hfree⟩⟩
  rw [h.unique hb hc]
  exact hfree

end hole

/-- A block that is not free is taken in from behind. -/
theorem Hole.takeUsed (h : Hole start s pre n (c :: post) fl) (hc : c.free = false) : Hole start s pre (n + c.size) post fl := by
  have hmem : (start + span pre + n, c) ∈ around start pre n (c :: post) := List.mem_append_right _ List.mem_cons_self
  have hnot : start + span pre + n ∉ fl := by
    rw [h.mem_iff hmem, hc]
    exact Bool.false_ne_true
  have hsize := h.size hmem
  refine ⟨h.toGap.takeNext hnot, fun a => ?_⟩
  refine (h.free_iff a).trans ⟨fun ⟨b, hb, hfree⟩ => ⟨b, ?_, hfree⟩, fun ⟨b, hb, hfree⟩ => ⟨b, ?_, hfree⟩⟩
  · refine (mem_around_takeNext h.pos_pre (by dsimp only at hsize; omega)).mpr ⟨hb, fun heq => ?_⟩
    exact hnot (heq ▸ (h.mem_iff hb).mpr hfree)
  · exact ((mem_around_takeNext h.pos_pre (by dsimp only at hsize; omega)).mp hb).1

/-- What leaves a list without duplicates. -/
theorem mem_without {l₁ l₂ : List Nat} {a y : Nat} (hnodup : (l₁ ++ y :: l₂).Nodup) : a ∈ l₁ ++ l₂ ↔ a ∈ l₁ ++ y :: l₂ ∧ a ≠ y := by
  have hnot : y ∉ l₁ ++ l₂ := (List.nodup_middle.mp hnodup).notMem
  have hmem : a ∈ l₁ ++ y :: l₂ ↔ a = y ∨ a ∈ l₁ ++ l₂ := by
    rw [List.mem_append, List.mem_cons, List.mem_append]
    exact or_left_comm
  rw [hmem]
  refine ⟨fun ha => ⟨Or.inr ha, fun heq => hnot (heq ▸ ha)⟩, fun ⟨ha, hne⟩ => ha.resolve_left hne⟩

/-- A free block is taken in from behind. -/
theorem Hole.absorbNext (h : Hole start s pre n (c :: post) fl) (hc : c.free = true) :
    ∃ fl', Hole start (cvmFlRemove s (addr (start + span pre + n))) pre (n + c.size) post fl' ∧
      Gap start (cvmFlRemove s (addr (start + span pre + n))) pre n (c :: post) fl' := by
  have hmem : (start + span pre + n, c) ∈ around start pre n (c :: post) := List.mem_append_right _ List.mem_cons_self
  have hsize := h.size hmem
  obtain ⟨l₁, l₂, rfl⟩ := List.append_of_mem ((h.mem_iff hmem).mpr hc)
  have hgap := h.toGap.remove
  have hwithout := @mem_without l₁ l₂
  refine ⟨l₁ ++ l₂, ⟨hgap.takeNext fun hin => ((hwithout h.nodup).mp hin).2 rfl, fun a => ?_⟩, hgap⟩
  rw [hwithout h.nodup, h.free_iff]
  refine ⟨fun ⟨⟨b, hb, hfree⟩, hne⟩ => ⟨b, ?_, hfree⟩, fun ⟨b, hb, hfree⟩ => ?_⟩
  · exact (mem_around_takeNext h.pos_pre (by dsimp only at hsize; omega)).mpr ⟨hb, hne⟩
  · obtain ⟨hb, hne⟩ := (mem_around_takeNext h.pos_pre (by dsimp only at hsize; omega)).mp hb
    exact ⟨⟨b, hb, hfree⟩, hne⟩

/-- A free block is taken in from before. -/
theorem Hole.absorbPrev (h : Hole start s (pre ++ [d]) n post fl) (hd : d.free = true) :
    ∃ fl', Hole start (cvmFlRemove s (addr (start + span pre))) pre (d.size + n) post fl' := by
  have hmem : (start + span pre, d) ∈ around start (pre ++ [d]) n post := by
    rw [around, place_append]
    exact List.mem_append_left _ (List.mem_append_right _ List.mem_cons_self)
  have hsize := h.size hmem
  have hpos : ∀ b ∈ pre, 0 < b.size := fun b hb => h.pos_pre b (List.mem_append_left _ hb)
  obtain ⟨l₁, l₂, rfl⟩ := List.append_of_mem ((h.mem_iff hmem).mpr hd)
  have hgap := h.toGap.remove
  have hwithout := @mem_without l₁ l₂
  refine ⟨l₁ ++ l₂, ⟨hgap.takePrev fun hin => ((hwithout h.nodup).mp hin).2 rfl, fun a => ?_⟩⟩
  rw [hwithout h.nodup, h.free_iff]
  constructor
  · rintro ⟨⟨b, hb, hfree⟩, hne⟩
    exact ⟨b, (mem_around_takePrev hpos (by dsimp only at hsize; omega)).mpr ⟨hb, hne⟩, hfree⟩
  · rintro ⟨b, hb, hfree⟩
    obtain ⟨hb, hne⟩ := (mem_around_takePrev hpos (by dsimp only at hsize; omega)).mp hb
    exact ⟨⟨b, hb, hfree⟩, hne⟩

/-- A block in use is stamped into the gap. -/
theorem Hole.fillUsed (h : Hole start s pre n post fl) (hz : 16 ≤ z) (hzn : z ≤ n) (hz4 : z % 4 = 0) :
    Hole start (cvmStamp s (addr (start + span pre)) (addr z) false) (pre ++ [⟨z, false⟩]) (n - z) post fl := by
  refine ⟨h.toGap.stamp hz hzn hz4 false, fun a => (h.free_iff a).trans ⟨fun ⟨b, hb, hfree⟩ => ⟨b, ?_, hfree⟩, fun ⟨b, hb, hfree⟩ => ?_⟩⟩
  · exact (mem_around_fill hzn false).mpr (Or.inr hb)
  · rcases (mem_around_fill hzn false).mp hb with heq | hb
    · obtain ⟨-, rfl⟩ := Prod.mk.inj heq
      exact absurd hfree Bool.false_ne_true
    · exact ⟨b, hb, hfree⟩

/-- A free block is stamped into the gap and pushed on the free list. -/
theorem Hole.fillFree (h : Hole start s pre n post fl) (hz : 16 ≤ z) (hzn : z ≤ n) (hz4 : z % 4 = 0) :
    Hole start (cvmFlPush (cvmStamp s (addr (start + span pre)) (addr z) true) (addr (start + span pre))) (pre ++ [⟨z, true⟩]) (n - z) post
      ((start + span pre) :: fl) := by
  have hmem : (start + span pre, ⟨z, true⟩) ∈ around start (pre ++ [⟨z, true⟩]) (n - z) post := (mem_around_fill hzn true).mpr (Or.inl rfl)
  have hnot : start + span pre ∉ fl := h.toGap.not_mem (by omega)
  have hpush := (h.toGap.stamp hz hzn hz4 true).push hmem hnot
  refine ⟨hpush, fun a => ?_⟩
  rw [List.mem_cons, h.free_iff]
  refine ⟨fun ha => ?_, fun ⟨b, hb, hfree⟩ => ?_⟩
  · rcases ha with rfl | ⟨b, hb, hfree⟩
    · exact ⟨_, hmem, rfl⟩
    · exact ⟨b, (mem_around_fill hzn true).mpr (Or.inr hb), hfree⟩
  · rcases (mem_around_fill hzn true).mp hb with heq | hb
    · exact Or.inl (congrArg Prod.fst heq)
    · exact Or.inr ⟨b, hb, hfree⟩

theorem Hole.close (h : Hole start s pre 0 post fl) : Hole start s (pre ++ post) 0 [] fl :=
  ⟨h.toGap.close, (close_eq start pre post).1 ▸ h.free_iff⟩

theorem Hole.open (h : Hole start s (pre ++ post) 0 [] fl) : Hole start s pre 0 post fl :=
  ⟨h.toGap.open, (close_eq start pre post).1.symm ▸ h.free_iff⟩

/-! ## The heap between calls -/

/-- The heap without a gap, no two free blocks side by side. -/
structure Heap (start : Nat) (s : AllocState) (blocks : List Chunk) (fl : List Nat) : Prop extends Hole start s blocks 0 [] fl where
  coalesced : Coalesced blocks

theorem around_closed : around start blocks 0 [] = place start blocks := List.append_nil _

theorem mem_around_closed (hx : x ∈ place start blocks) : x ∈ around start blocks 0 [] := around_closed.symm ▸ hx

section heap

variable (h : Heap start s blocks fl)
include h

/-- Where blocks are, and how big. -/
theorem Heap.bounds (hx : x ∈ place start blocks) :
    0 < x.1 ∧ x.1 + x.2.size < 2 ^ 32 ∧ 16 ≤ x.2.size ∧ x.2.size % 4 = 0 ∧ x.2.size < 2 ^ 31 := by
  have hpos := h.pos
  have hroom := h.room
  have hmem := h.mem_lt
  have hsmall := h.small
  have hsize := h.size (mem_around_closed hx)
  have hbounds := place_bounds hx
  rw [span_nil] at hroom hsmall
  omega

/-- The node of a free block. -/
theorem Heap.cvmSize_eq (hx : x ∈ place start blocks) : cvmSize s.mem (addr x.1) = addr x.2.size := by
  have hbounds := h.bounds hx
  exact (h.stamped x (mem_around_closed hx)).size_eq hbounds.2.2.2.1 (by omega)

/-! ## The walk -/

/-- The walk of `cvm_malloc` ends at the first block that is large enough, or at the end of the free list. -/
theorem Heap.cvmMallocWalk_eq {want : Nat} (hwant : want < 2 ^ 31) (fuel : Nat) (l₁ l₂ : List Nat) (hfl : fl = l₁ ++ l₂) :
    (cvmMallocWalk (addr want) s fuel (addr (l₂.headD 0)) = none ∧ fuel ≤ l₂.length) ∨
      (cvmMallocWalk (addr want) s fuel (addr (l₂.headD 0)) = some (0#32, s) ∧ ∀ a ∈ l₂, ∀ b, (a, b) ∈ place start blocks → b.size < want) ∨
      ∃ a b, (a, b) ∈ place start blocks ∧ b.free = true ∧ want ≤ b.size ∧
        cvmMallocWalk (addr want) s fuel (addr (l₂.headD 0)) = some (addr a + cvmHdr, cvmTake s (addr a) (addr b.size) (addr want)) := by
  induction fuel generalizing l₁ l₂ with
  | zero => exact Or.inl ⟨rfl, Nat.zero_le _⟩
  | succ fuel ih =>
    cases l₂ with
    | nil => exact Or.inr (Or.inl ⟨by rw [cvmMallocWalk, List.headD_nil, if_neg (fun h => h rfl)], fun a ha => nomatch ha⟩)
    | cons a l₂ =>
      have ha : a ∈ fl := hfl ▸ List.mem_append_right l₁ List.mem_cons_self
      obtain ⟨b, hb, hfree⟩ := (h.free_iff a).mp ha
      rw [around_closed] at hb
      have hbounds := h.bounds hb
      dsimp only at hbounds
      have hne : addr a ≠ 0#32 := mt (addr_eq_zero (by omega)).mp (by omega)
      have hnext : cvmFlNext s.mem (addr a) = addr (l₂.headD 0) := by
        have hlinked : nextOf s a = l₂.headD 0 := (hfl ▸ h.linked : Links.Linked (nextOf s) (prevOf s) 0 (l₁ ++ a :: l₂)).next_eq
        rw [nextOf_pos s hbounds.1] at hlinked
        rw [← hlinked, addr_toNat, cvmFlNext, show (4#32 : Word) = addr 4 from rfl, addr_add, toNat_addr (by omega)]
      have hstep : cvmMallocWalk (addr want) s (fuel + 1) (addr a) =
          if want ≤ b.size then some (addr a + cvmHdr, cvmTake s (addr a) (addr b.size) (addr want))
          else cvmMallocWalk (addr want) s fuel (addr (l₂.headD 0)) := by
        rw [cvmMallocWalk, if_pos hne, h.cvmSize_eq hb, hnext]
        dsimp only
        rw [addr_sle hwant hbounds.2.2.2.2]
        simp only [decide_eq_true_eq]
      rw [List.headD_cons, hstep]
      by_cases hfit : want ≤ b.size
      · rw [if_pos hfit]
        exact Or.inr (Or.inr ⟨a, b, hb, hfree, hfit, rfl⟩)
      · rw [if_neg hfit]
        have hrest := ih (l₁ ++ [a]) l₂ (by rw [hfl, List.append_assoc, List.singleton_append])
        rcases hrest with ⟨hnone, hfuel⟩ | ⟨hnull, hsmall⟩ | hfound
        · exact Or.inl ⟨hnone, Nat.succ_le_succ hfuel⟩
        · refine Or.inr (Or.inl ⟨hnull, fun a' ha' c hc => ?_⟩)
          rcases List.mem_cons.mp ha' with rfl | ha'
          · have heq : c = b := h.unique (mem_around_closed hc) (mem_around_closed hb)
            rw [heq]
            omega
          · exact hsmall a' ha' c hc
        · exact Or.inr (Or.inr hfound)

end heap

/-! ## Taking a block -/

/-- What `cvm_malloc` makes of the block it has found: a block in use, and what is left of it. -/
theorem Heap.take {want : Nat} (h : Heap start s (pre ++ b :: post) fl) (hfree : b.free = true) (hwant : 16 ≤ want) (hwant4 : want % 4 = 0)
    (hfit : want ≤ b.size) : ∃ z rest fl', want ≤ z ∧ z + span rest = b.size ∧ (∀ c ∈ rest, c.free = true) ∧
      Heap start (cvmTake s (addr (start + span pre)) (addr b.size) (addr want)) (pre ++ (⟨z, false⟩ :: rest ++ post)) fl' := by
  have hmem : (start + span pre, b) ∈ place start (pre ++ b :: post) := mem_place_middle.mpr (Or.inr (Or.inl rfl))
  have hbounds := h.bounds hmem
  dsimp only at hbounds
  obtain ⟨fl', hhole, -⟩ := h.toHole.open.absorbNext hfree
  rw [Nat.add_zero, Nat.zero_add] at hhole
  have hleft : addr b.size - addr want = addr (b.size - want) := addr_sub hfit
  have hmin : cvmMin.sle (addr (b.size - want)) = decide (16 ≤ b.size - want) := addr_sle (by decide) (by omega)
  unfold cvmTake
  dsimp only
  rw [hleft, hmin]
  by_cases hrest : 16 ≤ b.size - want
  · rw [if_pos (decide_eq_true hrest)]
    have hused := hhole.fillUsed hwant hfit hwant4
    have hsplit := hused.fillFree hrest (Nat.le_refl _) (by omega)
    have haddr : addr (start + span pre) + addr want = addr (start + span (pre ++ [⟨want, false⟩])) := by
      rw [addr_add, span_append, span_cons, span_nil, Nat.add_zero, Nat.add_assoc]
    rw [Nat.sub_self] at hsplit
    rw [haddr]
    refine ⟨want, [⟨b.size - want, true⟩], (start + span (pre ++ [⟨want, false⟩])) :: fl', Nat.le_refl want, ?_, fun c hc => ?_, ?_⟩
    · rw [span_cons, span_nil, Nat.add_zero]
      exact Nat.add_sub_cancel' hfit
    · rw [List.mem_singleton.mp hc]
    · have hclose := hsplit.close
      rw [List.append_assoc, List.append_assoc] at hclose
      refine ⟨hclose, h.coalesced.replace ?_ (List.cons_ne_nil _ _) ?_ ?_⟩
      · exact List.isChain_pair.mpr fun hboth => Bool.false_ne_true hboth.1
      · intro c _ d hd hboth
        obtain rfl : ⟨want, false⟩ = d := Option.some.inj hd
        exact Bool.false_ne_true hboth.2
      · intro d _ c hc hboth
        exact Bool.false_ne_true ((h.coalesced.behind hfree c hc).symm.trans hboth.2)
  · rw [if_neg (ne_true_of_eq_false (decide_eq_false hrest))]
    have hused := hhole.fillUsed (by omega) (Nat.le_refl b.size) hbounds.2.2.2.1
    rw [Nat.sub_self] at hused
    refine ⟨b.size, [], fl', hfit, rfl, (fun c hc => nomatch hc), ?_⟩
    have hclose := hused.close
    rw [List.append_assoc] at hclose
    refine ⟨hclose, h.coalesced.replace (List.isChain_singleton _) (List.cons_ne_nil _ _) ?_ ?_⟩
    · intro c _ d hd hboth
      obtain rfl : ⟨b.size, false⟩ = d := Option.some.inj hd
      exact Bool.false_ne_true hboth.2
    · intro d hd c _ hboth
      obtain rfl : ⟨b.size, false⟩ = d := Option.some.inj hd
      exact Bool.false_ne_true hboth.1

/-! ## Releasing a block -/

/-- The next block joins the gap if it is free. -/
theorem Hole.cvmFreeJoinNext_eq (h : Hole start s pre n post fl) (hpost : Coalesced post) : ∃ s' joined rest fl',
    post = joined ++ rest ∧ (∀ c ∈ joined, c.free = true) ∧ (∀ c ∈ rest.head?, c.free = false) ∧
      cvmFreeJoinNext s (addr (start + span pre)) (addr n) = (s', addr (n + span joined)) ∧ Hole start s' pre (n + span joined) rest fl' := by
  have hroom := h.room
  have hmemlt := h.mem_lt
  have hpos := h.pos
  have hnext : addr (start + span pre) + addr n = addr (start + span pre + n) := addr_add _ _
  unfold cvmFreeJoinNext
  dsimp only
  rw [hnext, h.end_eq]
  cases post with
  | nil =>
    rw [span_nil, Nat.add_zero, ← Nat.add_assoc]
    exact ⟨s, [], [], fl, rfl, (fun c hc => nomatch hc), (fun c hc => nomatch hc), if_neg fun hlt => Nat.lt_irrefl _ hlt.1, h⟩
  | cons c post =>
    have hmem : (start + span pre + n, c) ∈ around start pre n (c :: post) := List.mem_append_right _ List.mem_cons_self
    have hsize := h.size hmem
    dsimp only at hsize
    rw [span_cons] at hroom ⊢
    have hlt : addr (start + span pre + n) < addr (start + (span pre + n + (c.size + span post))) :=
      (addr_lt (by omega) (by omega)).mpr (by omega)
    have hflag : cvmFreeFlag s.mem (addr (start + span pre + n)) ≠ 0#32 ↔ c.free = true :=
      (h.stamped _ hmem).flag_iff hsize.2 (by dsimp only; omega)
    cases hc : c.free with
    | true =>
      obtain ⟨fl', hhole, hgap⟩ := h.absorbNext hc
      have hword : cvmSize (cvmFlRemove s (addr (start + span pre + n))).mem (addr (start + span pre + n)) = addr c.size :=
        (hgap.stamped _ hmem).size_eq hsize.2 (by dsimp only; omega)
      have hbehind : Coalesced ([] ++ c :: post) := hpost
      refine ⟨cvmFlRemove s (addr (start + span pre + n)), [c], post, fl', rfl, fun d hd => ?_, hbehind.behind hc, ?_, ?_⟩
      · rw [List.mem_singleton.mp hd]
        exact hc
      · rw [if_pos ⟨hlt, hflag.mpr hc⟩, hword, addr_add, span_cons, span_nil, Nat.add_zero]
      · rw [span_cons, span_nil, Nat.add_zero]
        exact hhole
    | false =>
      have hused : ¬cvmFreeFlag s.mem (addr (start + span pre + n)) ≠ 0#32 := fun hset =>
        Bool.false_ne_true (hc.symm.trans (hflag.mp hset))
      refine ⟨s, [], c :: post, fl, rfl, (fun d hd => nomatch hd), fun d hd => ?_, if_neg fun hjoin => hused hjoin.2, h⟩
      rw [← Option.some.inj hd]
      exact hc

/-- The block before joins the gap if it is free. -/
theorem Hole.cvmFreeJoinPrev_eq (h : Hole start s pre n post fl) (hpre : Coalesced pre) : ∃ s' rest joined fl',
    pre = rest ++ joined ∧ (∀ c ∈ joined, c.free = true) ∧ (∀ c ∈ rest.getLast?, c.free = false) ∧
      cvmFreeJoinPrev s (addr (start + span pre)) (addr n) = (s', addr (start + span rest), addr (n + span joined)) ∧
        Hole start s' rest (span joined + n) post fl' := by
  have hroom := h.room
  have hmemlt := h.mem_lt
  have hpos := h.pos
  unfold cvmFreeJoinPrev
  dsimp only
  rw [h.start_eq]
  rcases List.eq_nil_or_concat pre with rfl | ⟨pre, d, rfl⟩
  · refine ⟨s, [], [], fl, rfl, (fun c hc => nomatch hc), (fun c hc => nomatch hc), if_neg (BitVec.lt_irrefl _), ?_⟩
    rw [span_nil, Nat.zero_add]
    exact h
  · rw [List.concat_eq_append] at *
    have hspan : span (pre ++ [d]) = span pre + d.size := by rw [span_append, span_cons, span_nil, Nat.add_zero]
    have hmem : (start + span pre, d) ∈ around start (pre ++ [d]) n post := by
      rw [around, place_append]
      exact List.mem_append_left _ (List.mem_append_right _ List.mem_cons_self)
    have hsize := h.size hmem
    dsimp only at hsize
    rw [hspan] at hroom ⊢
    have hfooter : s.mem.word (addr (start + (span pre + d.size)) - cvmFtr).toNat = addr d.size := by
      rw [show cvmFtr = addr 4 from rfl, addr_sub (by omega), toNat_addr (by omega), ← Nat.add_assoc]
      exact (h.stamped _ hmem).2
    have hback : addr (start + (span pre + d.size)) - addr d.size = addr (start + span pre) := by
      rw [addr_sub (by omega), ← Nat.add_assoc, Nat.add_sub_cancel]
    have hge : addr (start + span pre) ≥ addr start := by
      rw [ge_iff_le, BitVec.le_def, toNat_addr (by omega), toNat_addr (by omega)]
      omega
    have hflag : cvmFreeFlag s.mem (addr (start + span pre)) ≠ 0#32 ↔ d.free = true :=
      (h.stamped _ hmem).flag_iff hsize.2 (by dsimp only; omega)
    have hgt : addr (start + (span pre + d.size)) > addr start := (addr_lt (by omega) (by omega)).mpr (by omega)
    rw [if_pos hgt, hfooter, hback]
    cases hd : d.free with
    | true =>
      obtain ⟨fl', hhole⟩ := h.absorbPrev hd
      refine ⟨cvmFlRemove s (addr (start + span pre)), pre, [d], fl', rfl, fun c hc => ?_, hpre.before hd, ?_, ?_⟩
      · rw [List.mem_singleton.mp hc]
        exact hd
      · rw [if_pos ⟨hge, hflag.mpr hd⟩, addr_add, span_cons, span_nil, Nat.add_zero]
      · rw [span_cons, span_nil, Nat.add_zero]
        exact hhole
    | false =>
      have hused : ¬cvmFreeFlag s.mem (addr (start + span pre)) ≠ 0#32 := fun hset =>
        Bool.false_ne_true (hd.symm.trans (hflag.mp hset))
      refine ⟨s, pre ++ [d], [], fl, (List.append_nil _).symm, (fun c hc => nomatch hc), fun c hc => ?_, ?_, ?_⟩
      · rw [List.getLast?_concat] at hc
        rw [← Option.some.inj hc]
        exact hd
      · rw [if_neg fun hjoin => hused hjoin.2, span_nil, Nat.add_zero, hspan]
      · rw [span_nil, Nat.zero_add]
        exact h

/-- Spans of blocks keep the alignment of their sizes. -/
theorem span_mod_four (h : ∀ b ∈ blocks, b.size % 4 = 0) : span blocks % 4 = 0 := by
  induction blocks with
  | nil => rfl
  | cons b blocks ih =>
    have hb := h b List.mem_cons_self
    have hblocks := ih fun c hc => h c (List.mem_cons_of_mem b hc)
    rw [span_cons]
    omega

/-- What `cvm_free` makes of a block in use: one free block of it and its free neighbours. -/
theorem Heap.free (h : Heap start s (pre ++ b :: post) fl) (hb : b.free = false) : ∃ before joinedBefore joinedBehind behind fl',
    pre = before ++ joinedBefore ∧ post = joinedBehind ++ behind ∧ (∀ c ∈ joinedBefore, c.free = true) ∧ (∀ c ∈ joinedBehind, c.free = true) ∧
      Heap start (cvmFree (addr (start + span pre + 4)) s)
        (before ++ ([⟨span joinedBefore + b.size + span joinedBehind, true⟩] ++ behind)) fl' := by
  have hmem : (start + span pre, b) ∈ place start (pre ++ b :: post) := mem_place_middle.mpr (Or.inr (Or.inl rfl))
  have hbounds := h.bounds hmem
  have hword := h.cvmSize_eq hmem
  have hroom := h.room
  have hmemlt := h.mem_lt
  rw [span_append, span_cons, span_nil] at hroom
  dsimp only at hbounds hword
  have hco := List.isChain_append.mp h.coalesced
  -- the gap at the block takes it in, then its neighbours
  have hgap := h.toHole.open.takeUsed hb
  rw [Nat.zero_add] at hgap
  obtain ⟨s₁, joinedBehind, behind, fl₁, hpost, hbehindFree, hbehindUsed, hnext, hhole₁⟩ :=
    hgap.cvmFreeJoinNext_eq hco.2.1.tail
  obtain ⟨s₂, before, joinedBefore, fl₂, hpre, hbeforeFree, hbeforeUsed, hprev, hhole₂⟩ := hhole₁.cvmFreeJoinPrev_eq hco.1
  have hsizes : ∀ c ∈ pre ++ post, c.size % 4 = 0 := fun c hc => (hgap.sizes c hc).2
  have hbefore4 : span joinedBefore % 4 = 0 := by
    refine span_mod_four fun c hc => hsizes c (List.mem_append_left _ ?_)
    rw [hpre]
    exact List.mem_append_right _ hc
  have hbehind4 : span joinedBehind % 4 = 0 := by
    refine span_mod_four fun c hc => hsizes c (List.mem_append_right _ ?_)
    rw [hpost]
    exact List.mem_append_left _ hc
  have hfilled := hhole₂.fillFree (by omega) (Nat.le_refl _) (by omega)
  rw [Nat.sub_self] at hfilled
  have hclose := hfilled.close
  have hfree : cvmFree (addr (start + span pre + 4)) s = cvmFlPush (cvmStamp s₂ (addr (start + span before))
      (addr (span joinedBefore + (b.size + span joinedBehind))) true) (addr (start + span before)) := by
    have hne : addr (start + span pre + 4) ≠ 0#32 := mt (addr_eq_zero (by omega)).mp (by omega)
    have hback : addr (start + span pre + 4) - cvmHdr = addr (start + span pre) := addr_sub (Nat.le_add_left _ _)
    unfold cvmFree
    rw [if_neg hne]
    dsimp only
    rw [hback, hword, hnext]
    dsimp only
    rw [hprev, Nat.add_comm (b.size + span joinedBehind)]
  rw [← hfree, List.append_assoc, ← Nat.add_assoc] at hclose
  refine ⟨before, joinedBefore, joinedBehind, behind, _, hpre, hpost, hbeforeFree, hbehindFree, hclose, ?_⟩
  refine List.isChain_append.mpr ⟨?_, ?_, ?_⟩
  · rw [hpre] at hco
    exact hco.1.left_of_append
  · refine List.isChain_cons.mpr ⟨fun c hc hboth => ?_, ?_⟩
    · exact Bool.false_ne_true ((hbehindUsed c hc).symm.trans hboth.2)
    · rw [hpost] at hco
      exact hco.2.1.tail.right_of_append
  · intro c hc d _ hboth
    exact Bool.false_ne_true ((hbeforeUsed c hc).symm.trans hboth.1)

end CronoVM
