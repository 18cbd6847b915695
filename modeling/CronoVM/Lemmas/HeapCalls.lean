import CronoVM.Lemmas.Heap

/-!
# The calls of the allocator

What `cvm_alloc_init`, `cvm_malloc` and `cvm_free` do to the list of blocks and to the pointers that have been handed out, and that the
program's own writes leave the list alone.
-/

namespace CronoVM

open Links Tiling

variable {start n fuel : Nat} {s : AllocState} {blocks : List Chunk} {fl : List Nat} {sysHeapStart sysHeapSize : Word}

/-! ## The request -/

/-- The size of the block for a request: the request in words, two of them at least, and the header and the footer. -/
def wantedSize (n : Nat) : Nat := max 8 ((n + 3) / 4 * 4) + 8

theorem and_not_three (w : Word) : w &&& ~~~3#32 = addr (w.toNat / 4 * 4) := by
  have hshift : w &&& ~~~3#32 = (w >>> 2) <<< 2 := by
    apply BitVec.eq_of_getLsbD_eq
    intro i hi
    rw [BitVec.getLsbD_and, BitVec.getLsbD_not, BitVec.getLsbD_shiftLeft, BitVec.getLsbD_ushiftRight]
    by_cases hlow : i < 2
    · have hbit : (3#32).getLsbD i = true := by
        obtain rfl | rfl : i = 0 ∨ i = 1 := by omega
        · rfl
        · rfl
      rw [hbit]
      simp [hlow]
    · have hbit : (3#32).getLsbD i = false := by
        rw [BitVec.getLsbD_ofNat, Nat.testBit_lt_two_pow (lt_of_lt_of_le (by decide : 3 < 2 ^ 2) (Nat.pow_le_pow_right (by decide) (by omega))),
          Bool.and_false]
      rw [hbit]
      simp [hi, hlow, show 2 + (i - 2) = i by omega]
  rw [hshift, ← BitVec.toNat_inj, BitVec.toNat_shiftLeft, BitVec.toNat_ushiftRight, addr, BitVec.toNat_ofNat, Nat.shiftLeft_eq,
    Nat.shiftRight_eq_div_pow]

theorem cvmWant_eq (hn : n ≤ 2 ^ 31 - 4) : cvmWant (addr n) = addr (wantedSize n) := by
  have hround : (addr n + 3#32) &&& ~~~3#32 = addr ((n + 3) / 4 * 4) := by
    rw [show (3#32 : Word) = addr 3 from rfl, addr_add, show (addr 3 : Word) = 3#32 from rfl, and_not_three, toNat_addr (by omega)]
  have hslt : (addr ((n + 3) / 4 * 4)).slt 8#32 = decide ((n + 3) / 4 * 4 < 8) := by
    rw [← Bool.not_not (BitVec.slt _ _), ← BitVec.sle_eq_not_slt, show (8#32 : Word) = addr 8 from rfl, addr_sle (by decide) (by omega), ← decide_not]
    exact decide_eq_decide.mpr Nat.not_le
  have hneed : (if (addr ((n + 3) / 4 * 4)).slt 8#32 then 8#32 else addr ((n + 3) / 4 * 4)) = addr (max 8 ((n + 3) / 4 * 4)) := by
    rw [hslt]
    by_cases hlt : (n + 3) / 4 * 4 < 8
    · rw [if_pos (decide_eq_true hlt), Nat.max_eq_left (Nat.le_of_lt hlt)]
    · rw [if_neg (ne_true_of_eq_false (decide_eq_false hlt)), Nat.max_eq_right (Nat.not_lt.mp hlt)]
  unfold cvmWant
  dsimp only
  rw [hround, hneed, show cvmHdr = addr 4 from rfl, show cvmFtr = addr 4 from rfl, addr_add, addr_add, wantedSize]

theorem wantedSize_bounds (hn : n ≤ 2 ^ 31 - 12) :
    n + 8 ≤ wantedSize n ∧ 16 ≤ wantedSize n ∧ wantedSize n % 4 = 0 ∧ wantedSize n < 2 ^ 31 := by
  unfold wantedSize
  omega

/-! ## The initial heap -/

/-- The one free block there is at first, in a region that is large enough for a block. -/
def initialBlocks (sysHeapSize : Word) : List Chunk :=
  let total := sysHeapSize.toNat / 4 * 4
  if 16 ≤ total ∧ total < 2 ^ 31 then [⟨total, true⟩] else []

theorem initialBlocks_cases (sysHeapSize : Word) :
    initialBlocks sysHeapSize = [] ∨ ∃ total, 16 ≤ total ∧ initialBlocks sysHeapSize = [⟨total, true⟩] := by
  unfold initialBlocks
  dsimp only
  by_cases hfit : 16 ≤ sysHeapSize.toNat / 4 * 4 ∧ sysHeapSize.toNat / 4 * 4 < 2 ^ 31
  · exact Or.inr ⟨_, hfit.1, if_pos hfit⟩
  · exact Or.inl (if_neg hfit)

theorem linked_empty (h : s.freeHead = 0#32) : Links.Linked (nextOf s) (prevOf s) 0 [] := by
  refine List.isChain_pair.mpr ⟨?_, fun hne => absurd rfl hne⟩
  rw [nextOf_zero, h]
  rfl

/-- A region is large enough for a block, by a comparison of signed numbers. -/
theorem sixteen_sle (h : n < 2 ^ 32) : cvmMin.sle (addr n) = decide (16 ≤ n ∧ n < 2 ^ 31) := by
  by_cases hn : n < 2 ^ 31
  · rw [show cvmMin = addr 16 from rfl, addr_sle (by decide) hn]
    exact decide_eq_decide.mpr (and_iff_left hn).symm
  · have htop : (addr n).toInt < 0 := by
      rw [BitVec.toInt_eq_toNat_cond, toNat_addr h, if_neg (by omega)]
      omega
    have hmin : cvmMin.toInt = 16 := rfl
    rw [BitVec.sle_eq_decide, hmin]
    exact decide_eq_decide.mpr (iff_of_false (by omega) fun hfit => hn hfit.2)

theorem heap_cvmAllocInit (hinited : s.inited = false) (hpos : 0 < sysHeapStart.toNat)
    (hroom : sysHeapStart.toNat + sysHeapSize.toNat ≤ s.mem.size) (hmem : s.mem.size < 2 ^ 32) :
    ∃ fl, Heap sysHeapStart.toNat (cvmAllocInit sysHeapStart sysHeapSize s) (initialBlocks sysHeapSize) fl := by
  have hstart : sysHeapStart = addr sysHeapStart.toNat := (addr_toNat _).symm
  have htotal : (sysHeapStart + sysHeapSize - sysHeapStart) &&& ~~~3#32 = addr (sysHeapSize.toNat / 4 * 4) := by
    rw [BitVec.add_comm, BitVec.add_sub_cancel, and_not_three]
  unfold cvmAllocInit initialBlocks
  rw [if_neg (ne_true_of_eq_false hinited)]
  dsimp only
  rw [htotal]
  have htotal4 : sysHeapSize.toNat / 4 * 4 % 4 = 0 := Nat.mul_mod_left _ _
  have htotalLe : sysHeapSize.toNat / 4 * 4 ≤ sysHeapSize.toNat := Nat.div_mul_le_self _ _
  generalize sysHeapSize.toNat / 4 * 4 = total at *
  have hsle : cvmMin.sle (addr total) = decide (16 ≤ total ∧ total < 2 ^ 31) := sixteen_sle (by omega)
  rw [hsle]
  by_cases hfit : 16 ≤ total ∧ total < 2 ^ 31
  · -- one gap from end to end is filled
    rw [if_pos (decide_eq_true hfit), if_pos hfit]
    have hgap : Hole sysHeapStart.toNat
        ⟨s.mem, sysHeapStart, sysHeapStart + addr total, 0#32, true⟩ [] total [] [] := by
      refine ⟨⟨hpos, ?_, hmem, ?_, rfl, hstart, ?_, (fun b hb => nomatch hb), (fun x hx => nomatch hx), linked_empty rfl, List.nodup_nil,
        (fun a ha => nomatch ha)⟩, fun a => iff_of_false (fun ha => nomatch ha) fun ⟨b, hb, _⟩ => nomatch hb⟩
      · rw [span_nil]
        dsimp only
        omega
      · rw [span_nil]
        omega
      · rw [span_nil, Nat.zero_add, Nat.add_zero, ← addr_add, ← hstart]
    have hfilled := hgap.fillFree hfit.1 (Nat.le_refl total) htotal4
    rw [Nat.sub_self, span_nil, Nat.add_zero, ← hstart] at hfilled
    refine ⟨[sysHeapStart.toNat], ?_, List.isChain_singleton _⟩
    have hclose := hfilled.close
    unfold cvmFlPush at hclose ⊢
    dsimp only at hclose ⊢
    rw [if_neg (fun h => h rfl)] at hclose ⊢
    exact hclose
  · rw [if_neg (ne_true_of_eq_false (decide_eq_false hfit)), if_neg hfit]
    refine ⟨[], ⟨⟨hpos, ?_, hmem, ?_, rfl, hstart, ?_, (fun b hb => nomatch hb), (fun x hx => nomatch hx), linked_empty rfl, List.nodup_nil,
        (fun a ha => nomatch ha)⟩, fun a => iff_of_false (fun ha => nomatch ha) fun ⟨b, hb, _⟩ => nomatch hb⟩, List.isChain_nil⟩
    · rw [span_nil]
      dsimp only
      omega
    · rw [span_nil]
      omega
    · rw [span_nil]
      exact hstart

/-! ## One call -/

/-- Taking a block puts it in use, or the front of it, and no other. -/
theorem Heap.take_used {a want : Nat} {b : Chunk} (h : Heap start s blocks fl) (hb : (a, b) ∈ place start blocks) (hfree : b.free = true)
    (hwant : 16 ≤ want) (hwant4 : want % 4 = 0) (hfit : want ≤ b.size) : ∃ z blocks' fl', want ≤ z ∧
      Heap start (cvmTake s (addr a) (addr b.size) (addr want)) blocks' fl' ∧ span blocks' = span blocks ∧
      (∀ x, x ∈ used start blocks' ↔ x = (a, ⟨z, false⟩) ∨ x ∈ used start blocks) ∧ ∀ x ∈ used start blocks, x.1 ≠ a := by
  obtain ⟨pre, post, rfl, rfl⟩ := exists_split hb
  obtain ⟨z, rest, fl', hz, hspan, hrest, hheap⟩ := h.take hfree hwant hwant4 hfit
  refine ⟨z, _, fl', hz, hheap, ?_, fun x => ?_, fun x hx heq => ?_⟩
  · rw [span_append, span_append, span_append, span_cons, span_cons, ← hspan, Nat.add_assoc]
  · have hold : used start (pre ++ b :: post) = used start pre ++ used (start + span pre + b.size) post := by
      rw [used_append, used_cons_free hfree]
    have hnew : used start (pre ++ (⟨z, false⟩ :: rest ++ post)) =
        used start pre ++ (start + span pre, ⟨z, false⟩) :: used (start + span pre + b.size) post := by
      rw [used_append, List.cons_append, used_cons_used rfl, used_append, used_eq_nil hrest, List.nil_append, ← hspan, Nat.add_assoc]
    rw [hold, hnew, List.mem_append, List.mem_append, List.mem_cons]
    exact or_left_comm
  · obtain ⟨hx, hxused⟩ := mem_used.mp hx
    have hsame : x.2 = b := h.unique (mem_around_closed (heq ▸ hx)) (mem_around_closed hb)
    exact Bool.false_ne_true (hxused.symm.trans (hsame ▸ hfree))

theorem Heap.freeHead_eq (h : Heap start s blocks fl) : s.freeHead = addr (fl.headD 0) := by
  rw [← h.linked.head_eq, nextOf_zero, addr_toNat]

/-- A call of `cvm_malloc` returns null if no free block is large enough, else the payload of a block that was not in use. -/
theorem Heap.cvmMalloc_cases (h : Heap start s blocks fl) (sysHeapStart sysHeapSize : Word) (hn : 1 ≤ n) (hmax : n ≤ 2 ^ 31 - 12)
    (fuel : Nat) :
    (cvmMalloc sysHeapStart sysHeapSize fuel (addr n) s = none ∧ fuel ≤ fl.length) ∨
      (cvmMalloc sysHeapStart sysHeapSize fuel (addr n) s = some (0#32, s) ∧
        ∀ x ∈ place start blocks, x.2.free = true → x.2.size < wantedSize n) ∨
      ∃ a z s' blocks' fl', cvmMalloc sysHeapStart sysHeapSize fuel (addr n) s = some (addr (a + 4), s') ∧ Heap start s' blocks' fl' ∧
        span blocks' = span blocks ∧ wantedSize n ≤ z ∧
        (∀ x, x ∈ used start blocks' ↔ x = (a, ⟨z, false⟩) ∨ x ∈ used start blocks) ∧ ∀ x ∈ used start blocks, x.1 ≠ a := by
  obtain ⟨-, hmin, hfour, hlt⟩ := wantedSize_bounds hmax
  have hsle : ¬(addr n).sle 0#32 = true := by
    rw [show (0#32 : Word) = addr 0 from rfl, addr_sle (by omega) (by decide), decide_eq_true_eq]
    omega
  have hcall : cvmMalloc sysHeapStart sysHeapSize fuel (addr n) s = cvmMallocWalk (addr (wantedSize n)) s fuel (addr (fl.headD 0)) := by
    unfold cvmMalloc
    rw [if_pos h.inited]
    dsimp only
    rw [if_neg hsle, cvmWant_eq (by omega), h.freeHead_eq]
  rw [hcall]
  rcases h.cvmMallocWalk_eq hlt fuel [] fl rfl with hnone | ⟨hnull, hsmall⟩ | ⟨a, b, hb, hfree, hfit, hsome⟩
  · exact Or.inl hnone
  · refine Or.inr (Or.inl ⟨hnull, fun x hx hfree => hsmall x.1 ?_ x.2 hx⟩)
    exact (h.free_iff x.1).mpr ⟨x.2, mem_around_closed hx, hfree⟩
  · obtain ⟨z, blocks', fl', hz, hheap, hspan, hused, hfresh⟩ := h.take_used hb hfree hmin hfour hfit
    refine Or.inr (Or.inr ⟨a, z, _, blocks', fl', ?_, hheap, hspan, hz, hused, hfresh⟩)
    rw [hsome, show cvmHdr = addr 4 from rfl, addr_add]

/-! ## Requests that wrap -/

/-- A number of 2 ^ 31 or more is below every size. -/
theorem addr_sle_of_ge {w z : Nat} (hw : 2 ^ 31 ≤ w) (hlt : w < 2 ^ 32) (hz : z < 2 ^ 31) : (addr w).sle (addr z) = true := by
  have hneg : (addr w).toInt = w - 2 ^ 32 := by
    rw [BitVec.toInt_eq_toNat_cond, toNat_addr hlt, if_neg (by omega)]
    rfl
  have hpos : (addr z).toInt = z := by
    rw [BitVec.toInt_eq_toNat_cond, toNat_addr (by omega), if_pos (by omega)]
  rw [BitVec.sle_eq_decide, hneg, hpos]
  exact decide_eq_true (by omega)

/-- The difference to a negative size wraps, and the whole block is taken. -/
theorem cvmTake_of_ge {w z : Nat} (b : Word) (hw : 2 ^ 31 ≤ w) (hle : w ≤ 2 ^ 31 + 4) (hz : 16 ≤ z) (hlt : z < 2 ^ 31) :
    cvmTake s b (addr z) (addr w) = cvmTake s b (addr z) (addr z) := by
  have hleft : addr z - addr w = addr (z + 2 ^ 32 - w) := by
    rw [BitVec.sub_eq_iff_eq_add, addr_add, Nat.sub_add_cancel (by omega)]
    exact BitVec.eq_of_toNat_eq (by rw [addr, addr, BitVec.toNat_ofNat, BitVec.toNat_ofNat, Nat.add_mod_right])
  have hmin : cvmMin.sle (addr (z + 2 ^ 32 - w)) = false := by
    rw [sixteen_sle (by omega)]
    exact decide_eq_false (by omega)
  have hmin' : cvmMin.sle (addr z - addr z) = false := by
    rw [BitVec.sub_self]
    rfl
  unfold cvmTake
  dsimp only
  rw [hleft, hmin, hmin', if_neg Bool.false_ne_true, if_neg Bool.false_ne_true]

/-- The size of the block for the largest requests is the least one. -/
theorem cvmWant_wraps (hn : 2 ^ 31 - 4 < n) (hlt : n < 2 ^ 31) : cvmWant (addr n) = addr 16 := by
  have hround : (addr n + 3#32) &&& ~~~3#32 = addr (2 ^ 31) := by
    rw [show (3#32 : Word) = addr 3 from rfl, addr_add, show (addr 3 : Word) = 3#32 from rfl, and_not_three, toNat_addr (by omega)]
    congr 1
    omega
  have hslt : (addr (2 ^ 31)).slt 8#32 = true := by decide
  unfold cvmWant
  dsimp only
  rw [hround, if_pos hslt]
  decide

/-- A request from 2 ^ 31 - 11 on gets the first free block that there is, or the front of it. -/
theorem Heap.cvmMalloc_large (h : Heap start s blocks fl) (sysHeapStart sysHeapSize : Word) (hn : 2 ^ 31 - 12 < n) (hlt : n < 2 ^ 31)
    (fuel : Nat) : (cvmMalloc sysHeapStart sysHeapSize fuel (addr n) s = none ∧ fuel ≤ fl.length) ∨
      (cvmMalloc sysHeapStart sysHeapSize fuel (addr n) s = some (0#32, s) ∧ fl = []) ∨
      ∃ a z s' blocks' fl', cvmMalloc sysHeapStart sysHeapSize fuel (addr n) s = some (addr (a + 4), s') ∧ Heap start s' blocks' fl' ∧
        span blocks' = span blocks ∧ (∀ x, x ∈ used start blocks' ↔ x = (a, ⟨z, false⟩) ∨ x ∈ used start blocks) ∧
        ∀ x ∈ used start blocks, x.1 ≠ a := by
  have hsle : ¬(addr n).sle 0#32 = true := by
    rw [show (0#32 : Word) = addr 0 from rfl, addr_sle hlt (by decide), decide_eq_true_eq]
    omega
  have hcall : cvmMalloc sysHeapStart sysHeapSize fuel (addr n) s = cvmMallocWalk (cvmWant (addr n)) s fuel (addr (fl.headD 0)) := by
    unfold cvmMalloc
    rw [if_pos h.inited]
    dsimp only
    rw [if_neg hsle, h.freeHead_eq]
  have hblock : ∀ a ∈ fl, ∃ b, (a, b) ∈ place start blocks ∧ b.free = true := by
    intro a ha
    obtain ⟨b, hb, hfree⟩ := (h.free_iff a).mp ha
    rw [around_closed] at hb
    exact ⟨b, hb, hfree⟩
  rw [hcall]
  by_cases hwraps : 2 ^ 31 - 4 < n
  · rw [cvmWant_wraps hwraps hlt]
    rcases h.cvmMallocWalk_eq (by decide : 16 < 2 ^ 31) fuel [] fl rfl with hnone | ⟨hnull, hsmall⟩ | ⟨a, b, hb, hfree, hfit, hsome⟩
    · exact Or.inl hnone
    · refine Or.inr (Or.inl ⟨hnull, List.eq_nil_iff_forall_not_mem.mpr fun a ha => ?_⟩)
      obtain ⟨b, hb, -⟩ := hblock a ha
      exact Nat.not_lt.mpr (h.bounds hb).2.2.1 (hsmall a ha b hb)
    · obtain ⟨z, blocks', fl', -, hheap, hspan, hused, hfresh⟩ := h.take_used hb hfree (Nat.le_refl 16) rfl hfit
      refine Or.inr (Or.inr ⟨a, z, _, blocks', fl', ?_, hheap, hspan, hused, hfresh⟩)
      rw [hsome, show cvmHdr = addr 4 from rfl, addr_add]
  · have hwanted : 2 ^ 31 ≤ wantedSize n ∧ wantedSize n ≤ 2 ^ 31 + 4 := by
      unfold wantedSize
      omega
    rw [cvmWant_eq (by omega)]
    cases fuel with
    | zero => exact Or.inl ⟨rfl, Nat.zero_le _⟩
    | succ fuel =>
      cases hfl : fl with
      | nil => exact Or.inr (Or.inl ⟨by rw [cvmMallocWalk, List.headD_nil, if_neg (fun h => h rfl)], rfl⟩)
      | cons a rest =>
        obtain ⟨b, hb, hfree⟩ := hblock a (hfl ▸ List.mem_cons_self)
        have hbounds := h.bounds hb
        dsimp only at hbounds
        have hne : addr a ≠ 0#32 := mt (addr_eq_zero (by omega)).mp (by omega)
        obtain ⟨z, blocks', fl', -, hheap, hspan, hused, hfresh⟩ := h.take_used hb hfree hbounds.2.2.1 hbounds.2.2.2.1 (Nat.le_refl _)
        refine Or.inr (Or.inr ⟨a, z, _, blocks', fl', ?_, hheap, hspan, hused, hfresh⟩)
        rw [cvmMallocWalk, List.headD_cons, if_pos hne, h.cvmSize_eq hb]
        dsimp only
        rw [addr_sle_of_ge hwanted.1 (by omega) hbounds.2.2.2.2, if_pos rfl,
          cvmTake_of_ge (addr a) hwanted.1 hwanted.2 hbounds.2.2.1 hbounds.2.2.2.2, show cvmHdr = addr 4 from rfl, addr_add]

/-- A call of `cvm_free` releases a block in use, and no other. -/
theorem Heap.cvmFree_eq {x : Nat × Chunk} (h : Heap start s blocks fl) (hx : x ∈ used start blocks) : ∃ blocks' fl',
    Heap start (cvmFree (addr (x.1 + 4)) s) blocks' fl' ∧ span blocks' = span blocks ∧
      ∀ y, y ∈ used start blocks' ↔ y ∈ used start blocks ∧ y.1 ≠ x.1 := by
  obtain ⟨hmem, hxused⟩ := mem_used.mp hx
  obtain ⟨pre, post, hblocks, haddr⟩ := exists_split hmem
  rw [hblocks] at h
  obtain ⟨before, joinedBefore, joinedBehind, behind, fl', hpre, hpost, hbeforeFree, hbehindFree, hheap⟩ := h.free hxused
  rw [← haddr] at hheap
  refine ⟨_, fl', hheap, ?_, fun y => ?_⟩
  · rw [hblocks, hpre, hpost]
    simp only [span_append, span_cons, span_nil]
    omega
  · have hspan : span pre = span before + span joinedBefore := by rw [hpre, span_append]
    have hxsize : 16 ≤ x.2.size := (h.bounds (mem_place_middle.mpr (Or.inr (Or.inl rfl)))).2.2.1
    have hold : used start blocks = used start before ++ x :: used (start + span pre + x.2.size + span joinedBehind) behind := by
      have hbefore : used start pre = used start before := by
        rw [hpre, used_append, used_eq_nil hbeforeFree, List.append_nil]
      rw [hblocks, used_append, used_cons_used hxused, hpost, used_append, used_eq_nil hbehindFree, List.nil_append, hbefore, ← haddr]
    have hnew : used start (before ++ ([⟨span joinedBefore + x.2.size + span joinedBehind, true⟩] ++ behind)) =
        used start before ++ used (start + span pre + x.2.size + span joinedBehind) behind := by
      rw [used_append, List.singleton_append, used_cons_free rfl, hspan]
      simp only [Nat.add_assoc]
    rw [hold, hnew, List.mem_append, List.mem_append, List.mem_cons]
    -- the other blocks in use lie before and behind
    refine ⟨fun hy => ?_, fun ⟨hy, hne⟩ => ?_⟩
    · rcases hy with hy | hy
      · have hbounds := place_bounds (mem_used.mp hy).1
        have hysize : 16 ≤ y.2.size := by
          refine (h.sizes y.2 ?_).1
          rw [List.append_nil, hpre]
          exact List.mem_append_left _ (List.mem_append_left _ (mem_of_place (mem_used.mp hy).1))
        exact ⟨Or.inl hy, by omega⟩
      · have hbounds := place_bounds (mem_used.mp hy).1
        exact ⟨Or.inr (Or.inr hy), by omega⟩
    · rcases hy with hy | rfl | hy
      · exact Or.inl hy
      · exact absurd rfl hne
      · exact Or.inr hy

/-! ## The allocated memory -/

/-- The pointers that have been handed out, with the requests, own the blocks in use. -/
structure Owned (start : Nat) (blocks : List Chunk) (live : List (Nat × Nat)) : Prop where
  block : ∀ l ∈ live, ∃ x ∈ used start blocks, l.1 = x.1 + 4 ∧ l.2 + 8 ≤ x.2.size
  pointer : ∀ x ∈ used start blocks, ∃ l ∈ live, l.1 = x.1 + 4
  distinct : (live.map Prod.fst).Nodup

theorem Owned.malloc {live : List (Nat × Nat)} {blocks' : List Chunk} {a z : Nat} (h : Owned start blocks live) (hz : n + 8 ≤ z)
    (hused : ∀ x, x ∈ used start blocks' ↔ x = (a, ⟨z, false⟩) ∨ x ∈ used start blocks) (hfresh : ∀ x ∈ used start blocks, x.1 ≠ a) :
    Owned start blocks' ((a + 4, n) :: live) where
  block := by
    intro l hl
    rcases List.mem_cons.mp hl with rfl | hl
    · exact ⟨(a, ⟨z, false⟩), (hused _).mpr (Or.inl rfl), rfl, hz⟩
    · obtain ⟨x, hx, heq, hsize⟩ := h.block l hl
      exact ⟨x, (hused x).mpr (Or.inr hx), heq, hsize⟩
  pointer := by
    intro x hx
    rcases (hused x).mp hx with rfl | hx
    · exact ⟨_, List.mem_cons_self, rfl⟩
    · obtain ⟨l, hl, heq⟩ := h.pointer x hx
      exact ⟨l, List.mem_cons_of_mem _ hl, heq⟩
  distinct := by
    refine List.nodup_cons.mpr ⟨fun hmem => ?_, h.distinct⟩
    obtain ⟨l, hl, heq⟩ := List.mem_map.mp hmem
    obtain ⟨x, hx, haddr, -⟩ := h.block l hl
    exact hfresh x hx (Nat.add_right_cancel (haddr.symm.trans heq))

theorem Owned.free {live : List (Nat × Nat)} {blocks' : List Chunk} {a : Nat} (h : Owned start blocks live)
    (hused : ∀ x, x ∈ used start blocks' ↔ x ∈ used start blocks ∧ x.1 ≠ a) :
    Owned start blocks' (live.filter fun l => l.1 ≠ a + 4) where
  block := by
    intro l hl
    obtain ⟨hl, hne⟩ := List.mem_filter.mp hl
    obtain ⟨x, hx, heq, hsize⟩ := h.block l hl
    refine ⟨x, (hused x).mpr ⟨hx, fun haddr => ?_⟩, heq, hsize⟩
    exact of_decide_eq_true hne (heq.trans (congrArg (· + 4) haddr))
  pointer := by
    intro x hx
    obtain ⟨hx, hne⟩ := (hused x).mp hx
    obtain ⟨l, hl, heq⟩ := h.pointer x hx
    exact ⟨l, List.mem_filter.mpr ⟨hl, decide_eq_true fun haddr => hne (Nat.add_right_cancel (heq.symm.trans haddr))⟩, heq⟩
  distinct := h.distinct.sublist (List.filter_sublist.map Prod.fst)

/-- The memory that the program may write: what it has been given, and what is not of the heap. -/
def ProgramWrites (start total : Nat) (live : List (Nat × Nat)) (m m' : Mem) : Prop :=
  m'.size = m.size ∧
    ∀ i, start ≤ i → i < start + total → (∀ l ∈ live, i < l.1 ∨ l.1 + l.2 ≤ i) → m'.byte i = m.byte i

/-- The program's writes leave the headers, the footers and the links alone. -/
theorem Heap.stored {live : List (Nat × Nat)} {m' : Mem} (h : Heap start s blocks fl) (howned : Owned start blocks live)
    (hwrites : ProgramWrites start (span blocks) live s.mem m') : Heap start { s with mem := m' } blocks fl := by
  obtain ⟨hsize, hkeep⟩ := hwrites
  have hbyte : ∀ x ∈ place start blocks, ∀ i, x.1 ≤ i → i < x.1 + x.2.size →
      (x.2.free = true ∨ i < x.1 + 4 ∨ x.1 + x.2.size - 4 ≤ i) → m'.byte i = s.mem.byte i := by
    intro x hx i hlo hhi hcase
    have hbounds := place_bounds hx
    refine hkeep i (by omega) (by omega) fun l hl => ?_
    obtain ⟨y, hy, haddr, hfits⟩ := howned.block l hl
    obtain ⟨hy, hyused⟩ := mem_used.mp hy
    rcases place_apart hx hy with rfl | hlt | hlt
    · rcases hcase with hfree | hheader | hfooter
      · exact absurd (hyused.symm.trans hfree) Bool.false_ne_true
      · omega
      · omega
    · omega
    · omega
  have hword : ∀ x ∈ place start blocks, ∀ p, x.1 ≤ p → p + 4 ≤ x.1 + x.2.size →
      (x.2.free = true ∨ p = x.1 ∨ p = x.1 + x.2.size - 4) → m'.word p = s.mem.word p := by
    intro x hx p hlo hhi hcase
    refine leWord_congr fun k hk => hbyte x hx (p + k) (by omega) (by omega) ?_
    rcases hcase with hfree | rfl | rfl
    · exact Or.inl hfree
    · exact Or.inr (Or.inl (by omega))
    · exact Or.inr (Or.inr (by omega))
  have hlinks : ∀ a ∈ fl, ∀ k, k + 4 ≤ 16 → m'.word (a + k) = s.mem.word (a + k) := by
    intro a ha k hk
    obtain ⟨b, hb, hfree⟩ := (h.free_iff a).mp ha
    rw [around_closed] at hb
    have hbounds := h.bounds hb
    dsimp only at hbounds
    exact hword (a, b) hb (a + k) (Nat.le_add_right _ _) (by dsimp only; omega) (Or.inl hfree)
  refine ⟨⟨⟨h.pos, ?_, ?_, h.small, h.inited, h.start_eq, h.end_eq, h.sizes, fun x hx => ?_, ?_, h.nodup, h.listed⟩, h.free_iff⟩, h.coalesced⟩
  · exact hsize ▸ h.room
  · exact hsize ▸ h.mem_lt
  · have hstamped := h.stamped x hx
    rw [around_closed] at hx
    have hbounds := h.bounds hx
    exact ⟨(hword x hx x.1 (Nat.le_refl _) (by omega) (Or.inr (Or.inl rfl))).trans hstamped.1,
      (hword x hx _ (by omega) (by omega) (Or.inr (Or.inr rfl))).trans hstamped.2⟩
  · refine h.linked.congr (fun a ha => ?_) fun a ha => ?_
    · rcases List.mem_cons.mp ha with rfl | ha
      · rfl
      · have hpos := (h.spaced h.listed).pos a ha
        rw [nextOf_pos _ hpos, nextOf_pos _ hpos, hlinks a ha 4 (by decide)]
    · rw [prevOf, prevOf, hlinks a ha 8 (by decide)]

end CronoVM
