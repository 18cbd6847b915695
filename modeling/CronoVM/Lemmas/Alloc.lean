import Mathlib.Data.Nat.Bitwise
import CronoVM.Lib.Links
import CronoVM.Lib.Tiling
import CronoVM.Runtime.Alloc

/-!
# The heap as a list of blocks

The blocks around a gap, their headers and footers, and the free list that runs through them. The pieces of `cvm_malloc` and `cvm_free`
change this picture one at a time: a node leaves the free list, the gap takes a neighbour in, a block is stamped into the gap, a block is
pushed on the free list.
-/

namespace CronoVM

open Links Tiling

/-! ## Words -/

/-- An address as a word. -/
abbrev addr (a : Nat) : Word := BitVec.ofNat 32 a

/-- An address in memory as a word. -/
theorem toNat_addr {a : Nat} (h : a < 2 ^ 32) : (addr a).toNat = a := by
  rw [BitVec.toNat_ofNat, Nat.mod_eq_of_lt h]

theorem addr_add (a b : Nat) : addr a + addr b = addr (a + b) := (BitVec.ofNat_add a b).symm

theorem addr_sub {a b : Nat} (h : b ≤ a) : addr a - addr b = addr (a - b) := by
  rw [BitVec.sub_eq_iff_eq_add, addr_add, Nat.sub_add_cancel h]

theorem addr_toNat (w : Word) : addr w.toNat = w := by
  rw [addr, BitVec.ofNat_toNat, BitVec.setWidth_eq]

theorem addr_eq_zero {a : Nat} (h : a < 2 ^ 32) : addr a = 0#32 ↔ a = 0 := by
  rw [← BitVec.toNat_inj, toNat_addr h, BitVec.toNat_zero]

/-- Addresses are compared as numbers. -/
theorem addr_lt {a b : Nat} (ha : a < 2 ^ 32) (hb : b < 2 ^ 32) : addr a < addr b ↔ a < b := by
  rw [BitVec.lt_def, toNat_addr ha, toNat_addr hb]

/-- Sizes are compared as numbers. -/
theorem addr_sle {a b : Nat} (ha : a < 2 ^ 31) (hb : b < 2 ^ 31) : (addr a).sle (addr b) = decide (a ≤ b) := by
  rw [BitVec.sle_eq_decide, BitVec.toInt_eq_toNat_of_lt (by rw [toNat_addr (by omega)]; omega),
    BitVec.toInt_eq_toNat_of_lt (by rw [toNat_addr (by omega)]; omega), toNat_addr (by omega), toNat_addr (by omega)]
  exact decide_eq_decide.mpr Int.ofNat_le

/-! ## Headers and footers -/

/-- The header of a block. -/
def header (b : Chunk) : Word := addr b.size ||| if b.free then 1#32 else 0#32

/-- A placed block has its header and its footer. -/
def Stamped (m : Mem) (x : Nat × Chunk) : Prop := m.word x.1 = header x.2 ∧ m.word (x.1 + x.2.size - 4) = addr x.2.size

/-- The flag bit of a size is free. -/
theorem addr_even {n i : Nat} (h : n % 4 = 0) (hi : i = 0) : (addr n).getLsbD i = false := by
  rw [hi, BitVec.getLsbD_ofNat]
  have hbit : n.testBit 0 = false := by
    rw [Nat.testBit_zero, decide_eq_false_iff_not]
    omega
  rw [hbit, Bool.and_false]

/-- The size is above the flag. -/
theorem header_size {b : Chunk} (h : b.size % 4 = 0) : header b &&& ~~~1#32 = addr b.size := by
  apply BitVec.eq_of_getLsbD_eq
  intro i hi
  have hone : (1#32).getLsbD i = decide (i = 0) := by rw [BitVec.getLsbD_one]; simp
  have hflag : (if b.free then 1#32 else 0#32 : Word).getLsbD i = (b.free && decide (i = 0)) := by
    cases b.free with
    | false => rw [if_neg Bool.false_ne_true, BitVec.getLsbD_zero, Bool.false_and]
    | true => rw [if_pos rfl, hone, Bool.true_and]
  rw [header, BitVec.getLsbD_and, BitVec.getLsbD_or, BitVec.getLsbD_not, hflag, hone]
  by_cases h0 : i = 0
  · rw [addr_even h h0, h0]
    simp
  · simp [h0, hi]

/-- The flag of a header says whether the block is free. -/
theorem header_flag {b : Chunk} (h : b.size % 4 = 0) : header b &&& 1#32 ≠ 0#32 ↔ b.free = true := by
  have hand : header b &&& 1#32 = if b.free then 1#32 else 0#32 := by
    apply BitVec.eq_of_getLsbD_eq
    intro i hi
    have hone : (1#32).getLsbD i = decide (i = 0) := by rw [BitVec.getLsbD_one]; simp
    rw [header, BitVec.getLsbD_and, BitVec.getLsbD_or, hone]
    by_cases h0 : i = 0
    · rw [addr_even h h0, h0]
      cases b.free <;> rfl
    · rw [decide_eq_false h0, Bool.and_false]
      cases b.free with
      | false => rw [if_neg Bool.false_ne_true, BitVec.getLsbD_zero]
      | true => rw [if_pos rfl, hone, decide_eq_false h0]
  rw [hand]
  cases b.free with
  | false => exact iff_of_false (fun h => h rfl) Bool.false_ne_true
  | true => exact iff_of_true (by decide) rfl

/-- The size is read from the header. -/
theorem Stamped.size_eq {m : Mem} {x : Nat × Chunk} (h : Stamped m x) (hsize : x.2.size % 4 = 0) (hx : x.1 < 2 ^ 32) :
    cvmSize m (addr x.1) = addr x.2.size := by
  rw [cvmSize, toNat_addr hx, h.1, header_size hsize]

/-- So is the flag. -/
theorem Stamped.flag_iff {m : Mem} {x : Nat × Chunk} (h : Stamped m x) (hsize : x.2.size % 4 = 0) (hx : x.1 < 2 ^ 32) :
    cvmFreeFlag m (addr x.1) ≠ 0#32 ↔ x.2.free = true := by
  rw [cvmFreeFlag, toNat_addr hx, h.1, header_flag hsize]

/-- A write outside a block's header and footer keeps them. -/
theorem Stamped.setWord {m : Mem} {x : Nat × Chunk} (h : Stamped m x) {p : Nat} (w : Word)
    (hheader : x.1 + 4 ≤ p ∨ p + 4 ≤ x.1) (hfooter : x.1 + x.2.size - 4 + 4 ≤ p ∨ p + 4 ≤ x.1 + x.2.size - 4) :
    Stamped (m.setWord p w) x := by
  refine ⟨?_, ?_⟩
  · rw [m.word_setWord_of_disjoint w hheader]
    exact h.1
  · rw [m.word_setWord_of_disjoint w hfooter]
    exact h.2

/-! ## The free list -/

/-- Where the free list goes on from a block, and where it starts. -/
def nextOf (s : AllocState) (a : Nat) : Nat := if a = 0 then s.freeHead.toNat else (s.mem.word (a + 4)).toNat

theorem nextOf_zero (s : AllocState) : nextOf s 0 = s.freeHead.toNat := if_pos rfl

theorem nextOf_pos (s : AllocState) {a : Nat} (h : 0 < a) : nextOf s a = (s.mem.word (a + 4)).toNat := if_neg (Nat.ne_of_gt h)

/-- Where the free list comes from. -/
def prevOf (s : AllocState) (a : Nat) : Nat := (s.mem.word (a + 8)).toNat

/-- Addresses of blocks: inside the address space, and 16 bytes apart. -/
structure Spaced (fl : List Nat) : Prop where
  pos : ∀ a ∈ fl, 0 < a
  lt : ∀ a ∈ fl, a + 16 ≤ 2 ^ 32
  apart : ∀ a ∈ fl, ∀ b ∈ fl, a = b ∨ a + 16 ≤ b ∨ b + 16 ≤ a

section links

variable {s : AllocState} {fl : List Nat} {p a : Nat} {v : Word} (h : Spaced fl) (hp : p ∈ fl)
include h hp

theorem cvmFlSetNext_mem : (cvmFlSetNext s (addr p) v).mem = s.mem.setWord (p + 4) v := by
  have hlt := h.lt p hp
  rw [cvmFlSetNext, show (4#32 : Word) = addr 4 from rfl, addr_add, toNat_addr (by omega)]

theorem cvmFlSetPrev_mem : (cvmFlSetPrev s (addr p) v).mem = s.mem.setWord (p + 8) v := by
  have hlt := h.lt p hp
  rw [cvmFlSetPrev, show (8#32 : Word) = addr 8 from rfl, addr_add, toNat_addr (by omega)]

/-- A link to the next block that is set, and the others. -/
theorem nextOf_setNext (ha : a ∈ 0 :: fl) : nextOf (cvmFlSetNext s (addr p) v) a = if a = p then v.toNat else nextOf s a := by
  have hpos := h.pos p hp
  rcases List.mem_cons.mp ha with rfl | ha
  · rw [nextOf_zero, nextOf_zero, if_neg (by omega)]
    rfl
  · have hapos := h.pos a ha
    rw [nextOf_pos _ hapos, nextOf_pos _ hapos, cvmFlSetNext_mem h hp]
    by_cases heq : a = p
    · rw [if_pos heq, heq, Mem.word_setWord]
    · have hapart := (h.apart a ha p hp).resolve_left heq
      rw [if_neg heq, s.mem.word_setWord_of_disjoint v (by omega)]

/-- It leaves the links to the previous ones. -/
theorem prevOf_setNext (ha : a ∈ fl) : prevOf (cvmFlSetNext s (addr p) v) a = prevOf s a := by
  have hapart := h.apart a ha p hp
  rw [prevOf, cvmFlSetNext_mem h hp, s.mem.word_setWord_of_disjoint v (by omega)]
  rfl

/-- A link to the previous block that is set, and the others. -/
theorem prevOf_setPrev (ha : a ∈ fl) : prevOf (cvmFlSetPrev s (addr p) v) a = if a = p then v.toNat else prevOf s a := by
  rw [prevOf, cvmFlSetPrev_mem h hp]
  by_cases heq : a = p
  · rw [if_pos heq, heq, Mem.word_setWord]
  · have hapart := (h.apart a ha p hp).resolve_left heq
    rw [if_neg heq, s.mem.word_setWord_of_disjoint v (by omega)]
    rfl

/-- It leaves the links to the next ones. -/
theorem nextOf_setPrev (ha : a ∈ 0 :: fl) : nextOf (cvmFlSetPrev s (addr p) v) a = nextOf s a := by
  rcases List.mem_cons.mp ha with rfl | ha
  · rw [nextOf_zero, nextOf_zero]
    rfl
  · have hapos := h.pos a ha
    have hapart := h.apart a ha p hp
    rw [nextOf_pos _ hapos, nextOf_pos _ hapos, cvmFlSetPrev_mem h hp, s.mem.word_setWord_of_disjoint v (by omega)]

end links

/-- Only links of the free list have been written. -/
structure OnlyLinks (fl : List Nat) (m m' : Mem) : Prop where
  size_eq : m'.size = m.size
  byte_eq : ∀ i, (∀ p ∈ fl, i < p + 4 ∨ p + 12 ≤ i) → m'.byte i = m.byte i

theorem OnlyLinks.refl (fl : List Nat) (m : Mem) : OnlyLinks fl m m := ⟨rfl, fun _ _ => rfl⟩

theorem OnlyLinks.trans {fl : List Nat} {m₁ m₂ m₃ : Mem} (h : OnlyLinks fl m₁ m₂) (h' : OnlyLinks fl m₂ m₃) : OnlyLinks fl m₁ m₃ :=
  ⟨h'.size_eq.trans h.size_eq, fun i hi => (h'.byte_eq i hi).trans (h.byte_eq i hi)⟩

/-- A write to a link of a free block changes links only. -/
theorem OnlyLinks.setWord {fl : List Nat} {p q : Nat} (hp : p ∈ fl) (hq : p + 4 ≤ q ∧ q + 4 ≤ p + 12) (m : Mem) (v : Word) :
    OnlyLinks fl m (m.setWord q v) := by
  refine ⟨rfl, fun i hi => ?_⟩
  rcases hi p hp with h | h
  · exact m.blit_byte_of_lt _ (by omega)
  · exact m.blit_byte_of_ge _ (by omega)

/-- The words outside the links are kept. -/
theorem OnlyLinks.word_eq {fl : List Nat} {m m' : Mem} (h : OnlyLinks fl m m') {q : Nat} (hq : ∀ p ∈ fl, q + 4 ≤ p + 4 ∨ p + 12 ≤ q) :
    m'.word q = m.word q :=
  leWord_congr fun k hk => h.byte_eq (q + k) fun p hp => (hq p hp).imp (fun _ => by omega) (fun _ => by omega)

/-- What `_cvm_fl_remove` does, for any two neighbours it finds. -/
theorem cvmFlRemove_links {s : AllocState} {fl : List Nat} {y : Nat} (h : Spaced fl) (hy : y ∈ fl) (hpv : prevOf s y ∈ 0 :: fl)
    (hnx : nextOf s y ∈ 0 :: fl) :
    (∀ a ∈ 0 :: fl, nextOf (cvmFlRemove s (addr y)) a = if a = prevOf s y then nextOf s y else nextOf s a) ∧
      (∀ a ∈ fl, prevOf (cvmFlRemove s (addr y)) a = if a = nextOf s y then prevOf s y else prevOf s a) ∧
      OnlyLinks fl s.mem (cvmFlRemove s (addr y)).mem := by
  have hypos := h.pos y hy
  have hylt := h.lt y hy
  have hpvw : cvmFlPrev s.mem (addr y) = addr (prevOf s y) := by
    rw [cvmFlPrev, show (8#32 : Word) = addr 8 from rfl, addr_add, toNat_addr (by omega), prevOf, addr_toNat]
  have hnxw : cvmFlNext s.mem (addr y) = addr (nextOf s y) := by
    rw [cvmFlNext, show (4#32 : Word) = addr 4 from rfl, addr_add, toNat_addr (by omega), nextOf_pos s hypos, addr_toNat]
  have hpvlt : prevOf s y < 2 ^ 32 := BitVec.isLt _
  have hnxlt : nextOf s y < 2 ^ 32 := by
    rw [nextOf_pos s hypos]
    exact BitVec.isLt _
  unfold cvmFlRemove
  dsimp only
  rw [hpvw, hnxw]
  generalize prevOf s y = pv at *
  generalize nextOf s y = nx at *
  -- the node before, or the head of the list
  obtain ⟨s₁, hs₁, hnext₁, hprev₁, honly₁⟩ : ∃ s₁, (if addr pv ≠ 0#32 then cvmFlSetNext s (addr pv) (addr nx)
      else { s with freeHead := addr nx }) = s₁ ∧ (∀ a ∈ 0 :: fl, nextOf s₁ a = if a = pv then nx else nextOf s a) ∧
      (∀ a ∈ fl, prevOf s₁ a = prevOf s a) ∧ OnlyLinks fl s.mem s₁.mem := by
    by_cases hzero : pv = 0
    · refine ⟨_, if_neg (not_not.mpr ((addr_eq_zero hpvlt).mpr hzero)), fun a ha => ?_, fun a _ => rfl, .refl fl s.mem⟩
      rcases List.mem_cons.mp ha with rfl | ha
      · rw [nextOf_zero, if_pos hzero.symm]
        exact toNat_addr hnxlt
      · have hapos := h.pos a ha
        rw [nextOf_pos _ hapos, if_neg (by omega), nextOf_pos _ hapos]
    · have hmem := (List.mem_cons.mp hpv).resolve_left hzero
      refine ⟨_, if_pos (mt (addr_eq_zero hpvlt).mp hzero), fun a ha => ?_, fun a ha => prevOf_setNext h hmem ha, ?_⟩
      · rw [nextOf_setNext h hmem ha, toNat_addr hnxlt]
      · rw [cvmFlSetNext_mem h hmem]
        exact .setWord hmem ⟨Nat.le_refl _, by omega⟩ _ _
  rw [hs₁]
  -- the node behind
  by_cases hzero : nx = 0
  · rw [if_neg (not_not.mpr ((addr_eq_zero hnxlt).mpr hzero))]
    refine ⟨hnext₁, fun a ha => ?_, honly₁⟩
    have hapos := h.pos a ha
    rw [if_neg (by omega)]
    exact hprev₁ a ha
  · have hmem := (List.mem_cons.mp hnx).resolve_left hzero
    rw [if_pos (mt (addr_eq_zero hnxlt).mp hzero)]
    refine ⟨fun a ha => ?_, fun a ha => ?_, ?_⟩
    · rw [nextOf_setPrev h hmem ha]
      exact hnext₁ a ha
    · rw [prevOf_setPrev h hmem ha, toNat_addr hpvlt, hprev₁ a ha]
    · rw [cvmFlSetPrev_mem h hmem]
      exact honly₁.trans (.setWord hmem ⟨by omega, Nat.le_refl _⟩ _ _)

/-- Unlinking, as the list sees it. -/
theorem linked_cvmFlRemove {s : AllocState} {l₁ l₂ : List Nat} {y : Nat} (h : Spaced (l₁ ++ y :: l₂)) (hnodup : (l₁ ++ y :: l₂).Nodup)
    (hlinked : Links.Linked (nextOf s) (prevOf s) 0 (l₁ ++ y :: l₂)) :
    Links.Linked (nextOf (cvmFlRemove s (addr y))) (prevOf (cvmFlRemove s (addr y))) 0 (l₁ ++ l₂) ∧
      OnlyLinks (l₁ ++ y :: l₂) s.mem (cvmFlRemove s (addr y)).mem := by
  have hy : y ∈ l₁ ++ y :: l₂ := List.mem_append_right _ List.mem_cons_self
  have hypos := h.pos y hy
  have hnil : 0 ∉ l₁ ++ y :: l₂ := fun hmem => absurd (h.pos 0 hmem) (Nat.lt_irrefl 0)
  have hpv : prevOf s y ∈ 0 :: (l₁ ++ y :: l₂) :=
    List.mem_cons.mpr ((List.mem_cons.mp (hlinked.prev_mem (Nat.ne_of_gt hypos))).imp_right (List.mem_append_left _))
  have hnx : nextOf s y ∈ 0 :: (l₁ ++ y :: l₂) :=
    List.mem_cons.mpr ((List.mem_cons.mp hlinked.next_mem).imp_right fun h => List.mem_append_right _ (List.mem_cons_of_mem y h))
  obtain ⟨hnext, hprev, honly⟩ := cvmFlRemove_links h hy hpv hnx
  have hsub : ∀ a ∈ l₁ ++ l₂, a ∈ l₁ ++ y :: l₂ := by
    intro a ha
    exact (List.mem_append.mp ha).elim (List.mem_append_left _) fun h => List.mem_append_right _ (List.mem_cons_of_mem y h)
  refine ⟨hlinked.unlink hnodup hnil (fun a ha => hnext a ?_) (fun a ha => hprev a (hsub a ha)), honly⟩
  exact List.mem_cons.mpr ((List.mem_cons.mp ha).imp_right (hsub a))

/-- What `_cvm_fl_push` does to the links. -/
theorem cvmFlPush_links {s : AllocState} {fl : List Nat} {b : Nat} (h : Spaced (b :: fl)) (hhead : nextOf s 0 ∈ 0 :: fl) :
    nextOf (cvmFlPush s (addr b)) 0 = b ∧
      (∀ a ∈ b :: fl, nextOf (cvmFlPush s (addr b)) a = if a = b then nextOf s 0 else nextOf s a) ∧
      (∀ a ∈ b :: fl, prevOf (cvmFlPush s (addr b)) a = if a = nextOf s 0 then b else if a = b then 0 else prevOf s a) ∧
      OnlyLinks (b :: fl) s.mem (cvmFlPush s (addr b)).mem := by
  have hb : b ∈ b :: fl := List.mem_cons_self
  have hblt := h.lt b hb
  have hhd : s.freeHead = addr (nextOf s 0) := by rw [nextOf_zero, addr_toNat]
  have hhdlt : nextOf s 0 < 2 ^ 32 := BitVec.isLt _
  -- the links of the new node
  obtain ⟨s₂, hs₂, hhd₂, hnext₂, hprev₂, honly₂⟩ : ∃ s₂, cvmFlSetNext (cvmFlSetPrev s (addr b) 0#32) (addr b)
      (cvmFlSetPrev s (addr b) 0#32).freeHead = s₂ ∧
      s₂.freeHead = s.freeHead ∧ (∀ a ∈ b :: fl, nextOf s₂ a = if a = b then nextOf s 0 else nextOf s a) ∧
      (∀ a ∈ b :: fl, prevOf s₂ a = if a = b then 0 else prevOf s a) ∧ OnlyLinks (b :: fl) s.mem s₂.mem := by
    refine ⟨_, rfl, rfl, fun a ha => ?_, fun a ha => ?_, ?_⟩
    · rw [nextOf_setNext h hb (List.mem_cons_of_mem 0 ha), nextOf_setPrev h hb (List.mem_cons_of_mem 0 ha), nextOf_zero]
      rfl
    · rw [prevOf_setNext h hb ha, prevOf_setPrev h hb ha, BitVec.toNat_zero]
    · rw [cvmFlSetNext_mem h hb, cvmFlSetPrev_mem h hb]
      exact (OnlyLinks.setWord hb ⟨by omega, Nat.le_refl _⟩ _ _).trans (.setWord hb ⟨Nat.le_refl _, by omega⟩ _ _)
  unfold cvmFlPush
  dsimp only
  rw [hs₂, hhd₂, hhd]
  by_cases hzero : nextOf s 0 = 0
  · have hnot : ¬addr (nextOf s 0) ≠ 0#32 := not_not.mpr ((addr_eq_zero hhdlt).mpr hzero)
    rw [if_neg hnot]
    refine ⟨?_, fun a ha => ?_, fun a ha => ?_, honly₂⟩
    · rw [nextOf_zero]
      exact toNat_addr (by omega)
    · have hapos := h.pos a ha
      rw [nextOf_pos _ hapos, ← nextOf_pos s₂ hapos]
      exact hnext₂ a ha
    · have hapos := h.pos a ha
      rw [if_neg (by omega)]
      exact hprev₂ a ha
  · have hne : addr (nextOf s 0) ≠ 0#32 := mt (addr_eq_zero hhdlt).mp hzero
    have hmem : nextOf s 0 ∈ b :: fl := List.mem_cons_of_mem b ((List.mem_cons.mp hhead).resolve_left hzero)
    rw [if_pos hne]
    refine ⟨?_, fun a ha => ?_, fun a ha => ?_, ?_⟩
    · rw [nextOf_zero]
      exact toNat_addr (by omega)
    · have hapos := h.pos a ha
      have hkeep := nextOf_setPrev (s := s₂) (v := addr b) h hmem (List.mem_cons_of_mem 0 ha)
      rw [nextOf_pos _ hapos] at hkeep ⊢
      exact hkeep.trans (hnext₂ a ha)
    · have hset := prevOf_setPrev (s := s₂) (v := addr b) h hmem ha
      rw [toNat_addr (by omega), hprev₂ a ha] at hset
      exact hset
    · have hset := cvmFlSetPrev_mem (s := s₂) (v := addr b) h hmem
      exact honly₂.trans (hset ▸ .setWord hmem ⟨by omega, Nat.le_refl _⟩ _ _)

/-- Pushing, as the list sees it. -/
theorem linked_cvmFlPush {s : AllocState} {fl : List Nat} {b : Nat} (h : Spaced (b :: fl)) (hb : b ∉ fl)
    (hlinked : Links.Linked (nextOf s) (prevOf s) 0 fl) :
    Links.Linked (nextOf (cvmFlPush s (addr b))) (prevOf (cvmFlPush s (addr b))) 0 (b :: fl) ∧
      OnlyLinks (b :: fl) s.mem (cvmFlPush s (addr b)).mem := by
  have hnil : 0 ∉ fl := fun hmem => absurd (h.pos 0 (List.mem_cons_of_mem b hmem)) (Nat.lt_irrefl 0)
  have hbpos := h.pos b List.mem_cons_self
  have hhead : nextOf s 0 ∈ 0 :: fl := by
    rw [hlinked.head_eq]
    cases fl with
    | nil => exact List.mem_cons_self
    | cons c fl => exact List.mem_cons_of_mem 0 List.mem_cons_self
  have hbhead : b ≠ nextOf s 0 := by
    intro heq
    rcases List.mem_cons.mp hhead with hzero | hmem
    · omega
    · exact hb (heq ▸ hmem)
  obtain ⟨hnew, hnext, hprev, honly⟩ := cvmFlPush_links h hhead
  refine ⟨hlinked.push hnil hnew (fun _ => ?_) ?_ (fun a ha => ?_) (fun a ha => ?_), honly⟩
  · rw [hprev b List.mem_cons_self, if_neg hbhead, if_pos rfl]
  · rw [hnext b List.mem_cons_self, if_pos rfl]
  · have hab : a ≠ b := fun heq => hb (heq ▸ ha)
    rw [hnext a (List.mem_cons_of_mem b ha), if_neg hab]
  · have hab : a ≠ b := fun heq => hb (heq ▸ ha)
    rw [hprev a (List.mem_cons_of_mem b ha), if_neg hab]

/-! ## Blocks around a gap -/

/-- The blocks before and behind a gap of `n` bytes. -/
def around (start : Nat) (pre : List Chunk) (n : Nat) (post : List Chunk) : List (Nat × Chunk) :=
  place start pre ++ place (start + span pre + n) post

/-- The statics that only initialisation writes. -/
structure SameHeap (s s' : AllocState) : Prop where
  start_eq : s'.heapStart = s.heapStart
  end_eq : s'.heapEnd = s.heapEnd
  inited_eq : s'.inited = s.inited

/-- Taking a block out of the list leaves the borders of the heap. -/
theorem sameHeap_cvmFlRemove (s : AllocState) (b : Word) : SameHeap s (cvmFlRemove s b) := by
  unfold cvmFlRemove
  dsimp only
  split <;> split <;> exact ⟨rfl, rfl, rfl⟩

/-- So does putting one in. -/
theorem sameHeap_cvmFlPush (s : AllocState) (b : Word) : SameHeap s (cvmFlPush s b) := by
  unfold cvmFlPush
  dsimp only
  split <;> exact ⟨rfl, rfl, rfl⟩

/-- The heap, but for a gap in it: the blocks around the gap are stamped, and the free list runs through some of them. -/
structure Gap (start : Nat) (s : AllocState) (pre : List Chunk) (n : Nat) (post : List Chunk) (fl : List Nat) : Prop where
  pos : 0 < start
  room : start + (span pre + n + span post) ≤ s.mem.size
  mem_lt : s.mem.size < 2 ^ 32
  small : span pre + n + span post < 2 ^ 31
  inited : s.inited = true
  start_eq : s.heapStart = addr start
  end_eq : s.heapEnd = addr (start + (span pre + n + span post))
  sizes : ∀ b ∈ pre ++ post, 16 ≤ b.size ∧ b.size % 4 = 0
  stamped : ∀ x ∈ around start pre n post, Stamped s.mem x
  linked : Links.Linked (nextOf s) (prevOf s) 0 fl
  nodup : fl.Nodup
  listed : ∀ a ∈ fl, ∃ b, (a, b) ∈ around start pre n post

section gap

variable {start n : Nat} {s : AllocState} {pre post : List Chunk} {fl : List Nat} {x y : Nat × Chunk}

/-- A block next to a gap lies in front of it or behind it. -/
theorem around_cases (h : x ∈ around start pre n post) :
    (x ∈ place start pre ∧ x.1 + x.2.size ≤ start + span pre) ∨
      (x ∈ place (start + span pre + n) post ∧ start + span pre + n ≤ x.1) := by
  rcases List.mem_append.mp h with h | h
  · exact Or.inl ⟨h, (place_bounds h).2⟩
  · exact Or.inr ⟨h, (place_bounds h).1⟩

/-- The blocks around a gap are the same or apart. -/
theorem around_apart (hx : x ∈ around start pre n post) (hy : y ∈ around start pre n post) :
    x = y ∨ x.1 + x.2.size ≤ y.1 ∨ y.1 + y.2.size ≤ x.1 := by
  rcases around_cases hx with ⟨hx, hxhi⟩ | ⟨hx, hxlo⟩
  · rcases around_cases hy with ⟨hy, -⟩ | ⟨-, hylo⟩
    · exact place_apart hx hy
    · exact Or.inr (Or.inl (by omega))
  · rcases around_cases hy with ⟨-, hyhi⟩ | ⟨hy, -⟩
    · exact Or.inr (Or.inr (by omega))
    · exact place_apart hx hy

/-- It lies inside the heap. -/
theorem around_bounds (hx : x ∈ around start pre n post) : start ≤ x.1 ∧ x.1 + x.2.size ≤ start + (span pre + n + span post) := by
  rcases List.mem_append.mp hx with hx | hx
  · have hbounds := place_bounds hx
    omega
  · have hbounds := place_bounds hx
    omega

variable (h : Gap start s pre n post fl)
include h

/-- It has room for the links and the tags. -/
theorem Gap.size (hx : x ∈ around start pre n post) : 16 ≤ x.2.size ∧ x.2.size % 4 = 0 := by
  refine h.sizes x.2 ?_
  rcases List.mem_append.mp hx with hx | hx
  · exact List.mem_append_left _ (mem_of_place hx)
  · exact List.mem_append_right _ (mem_of_place hx)

variable {fl' : List Nat} (hlisted : ∀ a ∈ fl', ∃ b, (a, b) ∈ around start pre n post)
include hlisted

/-- The addresses of blocks are apart. -/
theorem Gap.spaced : Spaced fl' := by
  have hroom := h.room
  have hmem := h.mem_lt
  have hpos := h.pos
  refine ⟨fun a ha => ?_, fun a ha => ?_, fun a ha b hb => ?_⟩
  · obtain ⟨c, hc⟩ := hlisted a ha
    have hbounds := around_bounds hc
    dsimp only at hbounds
    omega
  · obtain ⟨c, hc⟩ := hlisted a ha
    have hbounds := around_bounds hc
    have hsize := h.size hc
    dsimp only at hbounds hsize
    omega
  · obtain ⟨c, hc⟩ := hlisted a ha
    obtain ⟨d, hd⟩ := hlisted b hb
    have hcsize := h.size hc
    have hdsize := h.size hd
    rcases around_apart hc hd with heq | hlt | hlt
    · exact Or.inl (congrArg Prod.fst heq)
    · dsimp only at hlt hcsize
      exact Or.inr (Or.inl (by omega))
    · dsimp only at hlt hdsize
      exact Or.inr (Or.inr (by omega))

/-- Links are inside their blocks, between header and footer. -/
theorem Gap.stamped_of_onlyLinks {m : Mem} (honly : OnlyLinks fl' s.mem m) : ∀ x ∈ around start pre n post, Stamped m x := by
  intro x hx
  have hxsize := h.size hx
  obtain ⟨hheader, hfooter⟩ := h.stamped x hx
  have hclear : ∀ p ∈ fl', (x.1 + 4 ≤ p + 4 ∨ p + 12 ≤ x.1) ∧ (x.1 + x.2.size - 4 + 4 ≤ p + 4 ∨ p + 12 ≤ x.1 + x.2.size - 4) := by
    intro p hp
    obtain ⟨c, hc⟩ := hlisted p hp
    have hcsize := h.size hc
    rcases around_apart hx hc with heq | hlt | hlt
    · have hpx : x.1 = p := congrArg Prod.fst heq
      omega
    · dsimp only at hlt hcsize
      omega
    · dsimp only at hlt hcsize
      omega
  exact ⟨(honly.word_eq fun p hp => (hclear p hp).1).trans hheader, (honly.word_eq fun p hp => (hclear p hp).2).trans hfooter⟩

/-- The free list changes in the links of blocks. -/
theorem Gap.relink {s' : AllocState} (hsame : SameHeap s s') (honly : OnlyLinks fl' s.mem s'.mem) {fl'' : List Nat}
    (hsub : ∀ a ∈ fl'', a ∈ fl') (hnodup : fl''.Nodup) (hlinked : Links.Linked (nextOf s') (prevOf s') 0 fl'') : Gap start s' pre n post fl'' where
  pos := h.pos
  room := honly.size_eq ▸ h.room
  mem_lt := honly.size_eq ▸ h.mem_lt
  small := h.small
  inited := hsame.inited_eq.trans h.inited
  start_eq := hsame.start_eq.trans h.start_eq
  end_eq := hsame.end_eq.trans h.end_eq
  sizes := h.sizes
  stamped := h.stamped_of_onlyLinks hlisted honly
  linked := hlinked
  nodup := hnodup
  listed := fun a ha => hlisted a (hsub a ha)

end gap

/-- An empty gap changes nothing. -/
theorem close_eq (start : Nat) (pre post : List Chunk) : around start pre 0 post = around start (pre ++ post) 0 [] ∧
    span pre + 0 + span post = span (pre ++ post) + 0 + span [] := by
  refine ⟨?_, by rw [span_append, span_nil, Nat.add_zero, Nat.add_zero]⟩
  rw [around, around, place_append, Nat.add_zero]
  exact (List.append_nil _).symm

section steps

variable {start n : Nat} {s : AllocState} {pre post : List Chunk} {fl l₁ l₂ : List Nat} {x : Nat × Chunk} {y : Nat}

/-- A node leaves the free list. -/
theorem Gap.remove (h : Gap start s pre n post (l₁ ++ y :: l₂)) : Gap start (cvmFlRemove s (addr y)) pre n post (l₁ ++ l₂) := by
  obtain ⟨hlinked, honly⟩ := linked_cvmFlRemove (h.spaced h.listed) h.nodup h.linked
  refine h.relink h.listed (sameHeap_cvmFlRemove s _) honly (fun a ha => ?_) ?_ hlinked
  · exact (List.mem_append.mp ha).elim (List.mem_append_left _) fun h => List.mem_append_right _ (List.mem_cons_of_mem y h)
  · exact h.nodup.sublist (List.Sublist.append_left (List.sublist_cons_self y l₂) l₁)

/-- A block is pushed on the free list. -/
theorem Gap.push (h : Gap start s pre n post fl) (hx : x ∈ around start pre n post) (hfresh : x.1 ∉ fl) :
    Gap start (cvmFlPush s (addr x.1)) pre n post (x.1 :: fl) := by
  have hlisted : ∀ a ∈ x.1 :: fl, ∃ b, (a, b) ∈ around start pre n post := by
    intro a ha
    rcases List.mem_cons.mp ha with rfl | ha
    · exact ⟨x.2, hx⟩
    · exact h.listed a ha
  obtain ⟨hlinked, honly⟩ := linked_cvmFlPush (h.spaced hlisted) hfresh h.linked
  exact h.relink hlisted (sameHeap_cvmFlPush s _) honly (fun a ha => ha) (List.nodup_cons.mpr ⟨hfresh, h.nodup⟩) hlinked

/-- The gap takes the block behind it in. -/
theorem Gap.takeNext {c : Chunk} (h : Gap start s pre n (c :: post) fl) (hfree : start + span pre + n ∉ fl) :
    Gap start s pre (n + c.size) post fl := by
  have hplace : around start pre n (c :: post) = place start pre ++ (start + span pre + n, c) :: place (start + span pre + n + c.size) post := rfl
  have hmem : ∀ x, x ∈ around start pre (n + c.size) post → x ∈ around start pre n (c :: post) := by
    intro x hx
    rw [hplace]
    rcases List.mem_append.mp hx with hx | hx
    · exact List.mem_append_left _ hx
    · rw [← Nat.add_assoc] at hx
      exact List.mem_append_right _ (List.mem_cons_of_mem _ hx)
  have hspan : span pre + (n + c.size) + span post = span pre + n + span (c :: post) := by
    rw [span_cons]
    omega
  refine ⟨h.pos, hspan ▸ h.room, h.mem_lt, hspan ▸ h.small, h.inited, h.start_eq, hspan ▸ h.end_eq, fun b hb => h.sizes b ?_,
    fun x hx => h.stamped x (hmem x hx), h.linked, h.nodup, fun a ha => ?_⟩
  · exact (List.mem_append.mp hb).elim (List.mem_append_left _) fun hb => List.mem_append_right _ (List.mem_cons_of_mem c hb)
  · obtain ⟨b, hb⟩ := h.listed a ha
    refine ⟨b, ?_⟩
    rw [hplace] at hb
    rcases List.mem_append.mp hb with hb | hb
    · exact List.mem_append_left _ hb
    · rcases List.mem_cons.mp hb with heq | hb
      · have haddr : a = start + span pre + n := congrArg Prod.fst heq
        rw [haddr] at ha
        exact absurd ha hfree
      · refine List.mem_append_right _ ?_
        rwa [← Nat.add_assoc]

/-- The gap takes the block before it in. -/
theorem Gap.takePrev {d : Chunk} (h : Gap start s (pre ++ [d]) n post fl) (hfree : start + span pre ∉ fl) :
    Gap start s pre (d.size + n) post fl := by
  have hbehind : start + span (pre ++ [d]) + n = start + span pre + (d.size + n) := by
    rw [span_append, span_cons, span_nil]
    omega
  have hplace : around start (pre ++ [d]) n post =
      (place start pre ++ [(start + span pre, d)]) ++ place (start + span pre + (d.size + n)) post := by
    rw [around, place_append, hbehind]
    rfl
  have hmem : ∀ x, x ∈ around start pre (d.size + n) post → x ∈ around start (pre ++ [d]) n post := by
    intro x hx
    rw [hplace]
    exact (List.mem_append.mp hx).elim (fun hx => List.mem_append_left _ (List.mem_append_left _ hx)) (List.mem_append_right _)
  have hspan : span pre + (d.size + n) + span post = span (pre ++ [d]) + n + span post := by
    rw [span_append, span_cons, span_nil]
    omega
  refine ⟨h.pos, hspan ▸ h.room, h.mem_lt, hspan ▸ h.small, h.inited, h.start_eq, hspan ▸ h.end_eq, fun b hb => h.sizes b ?_,
    fun x hx => h.stamped x (hmem x hx), h.linked, h.nodup, fun a ha => ?_⟩
  · exact (List.mem_append.mp hb).elim (fun hb => List.mem_append_left _ (List.mem_append_left _ hb)) (List.mem_append_right _)
  · obtain ⟨b, hb⟩ := h.listed a ha
    refine ⟨b, ?_⟩
    rw [hplace] at hb
    rcases List.mem_append.mp hb with hb | hb
    · rcases List.mem_append.mp hb with hb | hb
      · exact List.mem_append_left _ hb
      · have haddr : a = start + span pre := congrArg Prod.fst (List.mem_singleton.mp hb)
        rw [haddr] at ha
        exact absurd ha hfree
    · exact List.mem_append_right _ hb

/-- The address of the gap is that of no block around. -/
theorem Gap.not_mem (h : Gap start s pre n post fl) (hn : 0 < n) : start + span pre ∉ fl := by
  intro hmem
  obtain ⟨c, hc⟩ := h.listed _ hmem
  have hsize := h.size hc
  rcases around_cases hc with ⟨-, hhi⟩ | ⟨-, hlo⟩
  · dsimp only at hhi hsize
    omega
  · dsimp only at hlo
    omega

/-- A block is stamped at the beginning of the gap. -/
theorem Gap.stamp (h : Gap start s pre n post fl) {z : Nat} (hz : 16 ≤ z) (hzn : z ≤ n) (hz4 : z % 4 = 0) (free : Bool) :
    Gap start (cvmStamp s (addr (start + span pre)) (addr z) free) (pre ++ [⟨z, free⟩]) (n - z) post fl := by
  have hroom := h.room
  have hmem := h.mem_lt
  have hstamp : (cvmStamp s (addr (start + span pre)) (addr z) free).mem =
      (s.mem.setWord (start + span pre) (header ⟨z, free⟩)).setWord (start + span pre + z - 4) (addr z) := by
    rw [cvmStamp, addr_add, show cvmFtr = addr 4 from rfl, addr_sub (by omega), toNat_addr (by omega), toNat_addr (by omega)]
    rfl
  have hspan : span (pre ++ [⟨z, free⟩]) = span pre + z := by rw [span_append, span_cons, span_nil, Nat.add_zero]
  have htotal : span (pre ++ [⟨z, free⟩]) + (n - z) + span post = span pre + n + span post := by
    rw [hspan]
    omega
  have hplace : around start (pre ++ [⟨z, free⟩]) (n - z) post =
      (place start pre ++ [(start + span pre, ⟨z, free⟩)]) ++ place (start + span pre + n) post := by
    rw [around, place_append, hspan, show start + (span pre + z) + (n - z) = start + span pre + n by omega]
    rfl
  -- what lies outside the gap is not touched
  have hkeep : ∀ q, q + 4 ≤ start + span pre ∨ start + span pre + n ≤ q →
      (cvmStamp s (addr (start + span pre)) (addr z) free).mem.word q = s.mem.word q := by
    intro q hq
    rw [hstamp, Mem.word_setWord_of_disjoint _ _ (by omega), Mem.word_setWord_of_disjoint _ _ (by omega)]
  have hlink : ∀ a ∈ fl, ∀ k, k + 4 ≤ 16 →
      (cvmStamp s (addr (start + span pre)) (addr z) free).mem.word (a + k) = s.mem.word (a + k) := by
    intro a ha k hk
    obtain ⟨c, hc⟩ := h.listed a ha
    have hsize := h.size hc
    dsimp only at hsize
    refine hkeep _ ?_
    rcases around_cases hc with ⟨-, hhi⟩ | ⟨-, hlo⟩
    · dsimp only at hhi
      omega
    · dsimp only at hlo
      omega
  refine ⟨h.pos, ?_, ?_, htotal ▸ h.small, h.inited, h.start_eq, htotal ▸ h.end_eq, fun b hb => ?_, fun x hx => ?_, ?_, h.nodup,
    fun a ha => ?_⟩
  · rw [htotal, hstamp]
    exact h.room
  · rw [hstamp]
    exact h.mem_lt
  · rcases List.mem_append.mp hb with hb | hb
    · rcases List.mem_append.mp hb with hb | hb
      · exact h.sizes b (List.mem_append_left _ hb)
      · rw [List.mem_singleton.mp hb]
        exact ⟨hz, hz4⟩
    · exact h.sizes b (List.mem_append_right _ hb)
  · rw [hplace] at hx
    have hold : ∀ y, y ∈ around start pre n post → Stamped (cvmStamp s (addr (start + span pre)) (addr z) free).mem y := by
      intro y hy
      have hsize := h.size hy
      obtain ⟨hheader, hfooter⟩ := h.stamped y hy
      refine ⟨(hkeep _ ?_).trans hheader, (hkeep _ ?_).trans hfooter⟩ <;> rcases around_cases hy with ⟨-, hhi⟩ | ⟨-, hlo⟩ <;> omega
    rcases List.mem_append.mp hx with hx | hx
    · rcases List.mem_append.mp hx with hx | hx
      · exact hold x (List.mem_append_left _ hx)
      · obtain rfl := List.mem_singleton.mp hx
        rw [hstamp]
        refine ⟨?_, Mem.word_setWord _ _ _⟩
        rw [Mem.word_setWord_of_disjoint _ _ (by dsimp only; omega), Mem.word_setWord]
    · exact hold x (List.mem_append_right _ hx)
  · refine h.linked.congr (fun a ha => ?_) (fun a ha => ?_)
    · rcases List.mem_cons.mp ha with rfl | ha
      · rw [nextOf_zero, nextOf_zero]
        rfl
      · have hapos := (h.spaced h.listed).pos a ha
        rw [nextOf_pos _ hapos, nextOf_pos _ hapos, hlink a ha 4 (by decide)]
    · rw [prevOf, prevOf, hlink a ha 8 (by decide)]
  · obtain ⟨c, hc⟩ := h.listed a ha
    refine ⟨c, ?_⟩
    rw [hplace]
    exact (List.mem_append.mp hc).elim (fun hc => List.mem_append_left _ (List.mem_append_left _ hc)) (List.mem_append_right _)

/-- A gap that is filled is no gap. -/
theorem Gap.close (h : Gap start s pre 0 post fl) : Gap start s (pre ++ post) 0 [] fl := by
  obtain ⟨hplace, hspan⟩ := close_eq start pre post
  exact ⟨h.pos, hspan ▸ h.room, h.mem_lt, hspan ▸ h.small, h.inited, h.start_eq, hspan ▸ h.end_eq,
    (List.append_nil (pre ++ post)).symm ▸ h.sizes, hplace ▸ h.stamped, h.linked, h.nodup, hplace ▸ h.listed⟩

/-- Between any two blocks there is an empty gap. -/
theorem Gap.open (h : Gap start s (pre ++ post) 0 [] fl) : Gap start s pre 0 post fl := by
  obtain ⟨hplace, hspan⟩ := close_eq start pre post
  exact ⟨h.pos, hspan ▸ h.room, h.mem_lt, hspan ▸ h.small, h.inited, h.start_eq, hspan ▸ h.end_eq,
    List.append_nil (pre ++ post) ▸ h.sizes, hplace ▸ h.stamped, h.linked, h.nodup, hplace ▸ h.listed⟩

end steps

end CronoVM
