import CronoVM.Lemmas.HeapCalls

/-!
# The heap allocator

Every run of `cvm_malloc` and `cvm_free` after `cvm_alloc_init`, with any writes of the program to allocated memory and outside the heap in
between.
-/

namespace CronoVM

open Links Tiling

variable {sysHeapStart sysHeapSize : Word} {s₀ s : AllocState} {live : List (Nat × Nat)}

/-- The states that a program can reach, with the pointers that are live in them and the requests. A request is live until its pointer is
freed. -/
inductive HeapRun (sysHeapStart sysHeapSize : Word) (s₀ : AllocState) : AllocState → List (Nat × Nat) → Prop
  | init : HeapRun sysHeapStart sysHeapSize s₀ (cvmAllocInit sysHeapStart sysHeapSize s₀) []
  | malloc {s s' : AllocState} {live : List (Nat × Nat)} {n fuel : Nat} {p : Word} : HeapRun sysHeapStart sysHeapSize s₀ s live →
      1 ≤ n → n ≤ 2 ^ 31 - 12 → cvmMalloc sysHeapStart sysHeapSize fuel (addr n) s = some (p, s') →
      HeapRun sysHeapStart sysHeapSize s₀ s' (if p = 0#32 then live else (p.toNat, n) :: live)
  | free {s : AllocState} {live : List (Nat × Nat)} {l : Nat × Nat} : HeapRun sysHeapStart sysHeapSize s₀ s live → l ∈ live →
      HeapRun sysHeapStart sysHeapSize s₀ (cvmFree (addr l.1) s) (live.filter fun l' => l'.1 ≠ l.1)
  | write {s : AllocState} {live : List (Nat × Nat)} {m' : Mem} : HeapRun sysHeapStart sysHeapSize s₀ s live →
      ProgramWrites sysHeapStart.toNat (span (initialBlocks sysHeapSize)) live s.mem m' →
      HeapRun sysHeapStart sysHeapSize s₀ { s with mem := m' } live

/-- What one call or write keeps. -/
structure RunInvariant (sysHeapStart sysHeapSize : Word) (s : AllocState) (live : List (Nat × Nat)) (blocks : List Chunk) (fl : List Nat) :
    Prop extends Heap sysHeapStart.toNat s blocks fl, Owned sysHeapStart.toNat blocks live where
  total : span blocks = span (initialBlocks sysHeapSize)

/-- `cvm_alloc_init` makes a heap of free blocks, and nothing is live in it. -/
theorem RunInvariant.init (hinited : s₀.inited = false) (hpos : 0 < sysHeapStart.toNat)
    (hroom : sysHeapStart.toNat + sysHeapSize.toNat ≤ s₀.mem.size) (hmem : s₀.mem.size < 2 ^ 32) :
    ∃ blocks fl, RunInvariant sysHeapStart sysHeapSize (cvmAllocInit sysHeapStart sysHeapSize s₀) [] blocks fl := by
  obtain ⟨fl, hheap⟩ := heap_cvmAllocInit hinited hpos hroom hmem
  have hfree : ∀ b ∈ initialBlocks sysHeapSize, b.free = true := by
    intro b hb
    rcases initialBlocks_cases sysHeapSize with hnone | ⟨total, -, hone⟩
    · rw [hnone] at hb
      nomatch hb
    · rw [hone] at hb
      rw [List.mem_singleton.mp hb]
  refine ⟨_, fl, hheap, ⟨(fun l hl => nomatch hl), fun x hx => ?_, List.nodup_nil⟩, rfl⟩
  rw [used_eq_nil hfree] at hx
  nomatch hx

section step

variable {blocks : List Chunk} {fl : List Nat} (h : RunInvariant sysHeapStart sysHeapSize s live blocks fl)
include h

/-- A block is taken, and `n` bytes of it are the program's. -/
theorem RunInvariant.malloc {s' : AllocState} {blocks' : List Chunk} {fl' : List Nat} {a z n : Nat}
    (hheap : Heap sysHeapStart.toNat s' blocks' fl') (hspan : span blocks' = span blocks)
    (hused : ∀ x, x ∈ used sysHeapStart.toNat blocks' ↔ x = (a, ⟨z, false⟩) ∨ x ∈ used sysHeapStart.toNat blocks)
    (hfresh : ∀ x ∈ used sysHeapStart.toNat blocks, x.1 ≠ a) (hn : n + 8 ≤ z) :
    addr (a + 4) ≠ 0#32 ∧ (addr (a + 4)).toNat = a + 4 ∧ RunInvariant sysHeapStart sysHeapSize s' ((a + 4, n) :: live) blocks' fl' := by
  have hbounds := hheap.bounds (mem_used.mp ((hused _).mpr (Or.inl rfl))).1
  dsimp only at hbounds
  exact ⟨mt (addr_eq_zero (by omega)).mp (by omega), toNat_addr (by omega), hheap, h.toOwned.malloc hn hused hfresh, hspan.trans h.total⟩

/-- A call of `cvm_free` with a live pointer takes it out of the live ones and keeps the invariant. -/
theorem RunInvariant.free {l : Nat × Nat} (hl : l ∈ live) : ∃ blocks' fl',
    RunInvariant sysHeapStart sysHeapSize (cvmFree (addr l.1) s) (live.filter fun l' => l'.1 ≠ l.1) blocks' fl' := by
  obtain ⟨x, hx, haddr, -⟩ := h.block l hl
  obtain ⟨blocks', fl', hheap, hspan, hused⟩ := h.toHeap.cvmFree_eq hx
  rw [haddr]
  exact ⟨blocks', fl', hheap, h.toOwned.free hused, hspan.trans h.total⟩

/-- What the program writes to its own memory and outside the heap touches no tag and no link. -/
theorem RunInvariant.write {m' : Mem} (hwrites : ProgramWrites sysHeapStart.toNat (span (initialBlocks sysHeapSize)) live s.mem m') :
    RunInvariant sysHeapStart sysHeapSize { s with mem := m' } live blocks fl := by
  rw [← h.total] at hwrites
  exact ⟨h.toHeap.stored h.toOwned hwrites, h.toOwned, h.total⟩

end step

/-- Every run keeps the invariant, for some list of blocks and of free blocks. -/
theorem HeapRun.invariant (h : HeapRun sysHeapStart sysHeapSize s₀ s live) (hinited : s₀.inited = false) (hpos : 0 < sysHeapStart.toNat)
    (hroom : sysHeapStart.toNat + sysHeapSize.toNat ≤ s₀.mem.size) (hmem : s₀.mem.size < 2 ^ 32) :
    ∃ blocks fl, RunInvariant sysHeapStart sysHeapSize s live blocks fl := by
  induction h with
  | init => exact RunInvariant.init hinited hpos hroom hmem
  | @malloc s s' live n fuel p _ hn hmax hcall ih =>
    obtain ⟨blocks, fl, hinv⟩ := ih
    rcases hinv.toHeap.cvmMalloc_cases sysHeapStart sysHeapSize hn hmax fuel with
      ⟨hnone, -⟩ | ⟨hnull, -⟩ | ⟨a, z, s'', blocks', fl', hsome, hheap, hspan, hz, hused, hfresh⟩
    · rw [hnone] at hcall
      nomatch hcall
    · rw [hnull] at hcall
      obtain ⟨rfl, rfl⟩ := Prod.mk.inj (Option.some.inj hcall)
      rw [if_pos rfl]
      exact ⟨blocks, fl, hinv⟩
    · rw [hsome] at hcall
      obtain ⟨rfl, rfl⟩ := Prod.mk.inj (Option.some.inj hcall)
      have hwanted := wantedSize_bounds hmax
      obtain ⟨hne, haddr, hinv'⟩ := hinv.malloc (n := n) hheap hspan hused hfresh (by omega)
      rw [if_neg hne, haddr]
      exact ⟨blocks', fl', hinv'⟩
  | free _ hl ih =>
    obtain ⟨blocks, fl, hinv⟩ := ih
    exact hinv.free hl
  | write _ hwrites ih =>
    obtain ⟨blocks, fl, hinv⟩ := ih
    exact ⟨blocks, fl, hinv.write hwrites⟩

/-- What holds of the heap in a state, for some list of blocks and some free list. -/
structure HeapConsistent (sysHeapStart sysHeapSize : Word) (s : AllocState) (live : List (Nat × Nat)) (blocks : List Chunk) (fl : List Nat) :
    Prop where
  /-- The blocks tile the heap, from its start to its end. -/
  tiles : s.heapStart.toNat = sysHeapStart.toNat ∧ s.heapEnd.toNat = sysHeapStart.toNat + span blocks ∧
    span blocks = span (initialBlocks sysHeapSize)
  /-- Headers and footers give the sizes. -/
  tags : ∀ x ∈ place sysHeapStart.toNat blocks, cvmSize s.mem (addr x.1) = addr x.2.size ∧
    (cvmFreeFlag s.mem (addr x.1) ≠ 0#32 ↔ x.2.free = true) ∧
    s.mem.word (x.1 + x.2.size - 4) = cvmSize s.mem (addr x.1)
  /-- The free list runs through the free blocks, once through each, and ends. -/
  listed : Links.Linked (nextOf s) (prevOf s) 0 fl ∧ fl.Nodup ∧ 0 ∉ fl ∧
    ∀ a, a ∈ fl ↔ ∃ b, (a, b) ∈ place sysHeapStart.toNat blocks ∧ b.free = true
  coalesced : Coalesced blocks
  /-- A live pointer is the payload of a block in use that is large enough. -/
  payloads : ∀ l ∈ live, ∃ x ∈ used sysHeapStart.toNat blocks, l.1 = x.1 + 4 ∧ l.1 + l.2 ≤ x.1 + x.2.size - 4
  inside : ∀ l ∈ live, sysHeapStart.toNat ≤ l.1 ∧ l.1 + l.2 ≤ sysHeapStart.toNat + span blocks
  disjoint : live.Pairwise fun l l' => l.1 + l.2 ≤ l'.1 ∨ l'.1 + l'.2 ≤ l.1
  /-- Every request is answered, and by null only when no free block is large enough. -/
  answered : ∀ n, 1 ≤ n → n ≤ 2 ^ 31 - 12 → (∃ fuel r, cvmMalloc sysHeapStart sysHeapSize fuel (addr n) s = some r) ∧
    ∀ fuel s', cvmMalloc sysHeapStart sysHeapSize fuel (addr n) s = some (0#32, s') →
      ∀ x ∈ place sysHeapStart.toNat blocks, x.2.free = true → x.2.size < wantedSize n
  restored : live = [] → blocks = initialBlocks sysHeapSize

/-- The memory of two live pointers does not overlap. -/
theorem RunInvariant.pairwise {blocks : List Chunk} {fl : List Nat} (h : RunInvariant sysHeapStart sysHeapSize s live blocks fl) :
    live.Pairwise fun l l' => l.1 + l.2 ≤ l'.1 ∨ l'.1 + l'.2 ≤ l.1 := by
  refine (List.pairwise_map.mp h.distinct).imp_of_mem fun {l l'} hl hl' hne => ?_
  obtain ⟨x, hx, haddr, hfits⟩ := h.block l hl
  obtain ⟨x', hx', haddr', hfits'⟩ := h.block l' hl'
  rcases place_apart (mem_used.mp hx).1 (mem_used.mp hx').1 with rfl | hlt | hlt
  · exact absurd (haddr.trans haddr'.symm) hne
  · omega
  · omega

/-- Without a live pointer there is no block in use, and the blocks are one or none. -/
theorem RunInvariant.restored {blocks : List Chunk} {fl : List Nat} (h : RunInvariant sysHeapStart sysHeapSize s [] blocks fl) :
    blocks = initialBlocks sysHeapSize := by
  have hfree : ∀ b ∈ blocks, b.free = true := by
    intro b hb
    obtain ⟨pre, post, rfl⟩ := List.append_of_mem hb
    refine eq_true_of_ne_false fun hused => ?_
    obtain ⟨l, hl, -⟩ := h.pointer _ (mem_used.mpr ⟨mem_place_middle.mpr (Or.inr (Or.inl rfl)), hused⟩)
    nomatch hl
  have htotal := h.total
  rcases h.coalesced.single hfree with hnil | hone
  · rcases initialBlocks_cases sysHeapSize with hnone | ⟨total, hmin, hinitial⟩
    · rw [hnil, hnone]
    · rw [hnil, hinitial, span_nil, span_cons, span_nil] at htotal
      dsimp only at htotal
      omega
  · have hmin : 16 ≤ span blocks := (h.sizes ⟨span blocks, true⟩ (List.mem_append_left _ (hone ▸ List.mem_cons_self))).1
    rcases initialBlocks_cases sysHeapSize with hnone | ⟨total, -, hinitial⟩
    · rw [hnone, span_nil] at htotal
      omega
    · rw [hinitial, span_cons, span_nil, Nat.add_zero] at htotal
      rw [hinitial, hone, htotal]

/-- The heap is consistent in every state that a program reaches from an initial one in which the region the host gives lies in memory. -/
theorem heapRun_consistent (hinited : s₀.inited = false) (hpos : 0 < sysHeapStart.toNat)
    (hroom : sysHeapStart.toNat + sysHeapSize.toNat ≤ s₀.mem.size) (hmem : s₀.mem.size < 2 ^ 32)
    (h : HeapRun sysHeapStart sysHeapSize s₀ s live) : ∃ blocks fl, HeapConsistent sysHeapStart sysHeapSize s live blocks fl := by
  obtain ⟨blocks, fl, hinv⟩ := h.invariant hinited hpos hroom hmem
  have hmemRoom := hinv.room
  have hmemLt := hinv.mem_lt
  rw [span_nil, Nat.add_zero] at hmemRoom
  refine ⟨blocks, fl, ⟨?_, ?_, hinv.total⟩, fun x hx => ?_, ⟨hinv.linked, hinv.nodup, ?_, fun a => ?_⟩, hinv.coalesced, fun l hl => ?_,
    fun l hl => ?_, hinv.pairwise, fun n hn hmax => ⟨?_, fun fuel s' hnull => ?_⟩, ?_⟩
  · rw [hinv.start_eq, addr_toNat]
  · rw [hinv.end_eq, span_nil, Nat.add_zero, toNat_addr (by omega)]
  · have hbounds := hinv.bounds hx
    have hstamped := hinv.stamped x (mem_around_closed hx)
    rw [hinv.cvmSize_eq hx]
    exact ⟨rfl, hstamped.flag_iff hbounds.2.2.2.1 (by omega), hstamped.2⟩
  · exact fun hzero => absurd ((hinv.spaced hinv.listed).pos 0 hzero) (Nat.lt_irrefl 0)
  · rw [hinv.free_iff, around_closed]
  · obtain ⟨x, hx, haddr, hfits⟩ := hinv.block l hl
    exact ⟨x, hx, haddr, by omega⟩
  · obtain ⟨x, hx, haddr, hfits⟩ := hinv.block l hl
    have hbounds := place_bounds (mem_used.mp hx).1
    omega
  · rcases hinv.cvmMalloc_cases sysHeapStart sysHeapSize hn hmax (fl.length + 1) with ⟨-, hfuel⟩ | ⟨hnull, -⟩ |
      ⟨a, z, s', blocks', fl', hsome, -⟩
    · exact absurd hfuel (Nat.not_succ_le_self _)
    · exact ⟨_, _, hnull⟩
    · exact ⟨_, _, hsome⟩
  · rcases hinv.cvmMalloc_cases sysHeapStart sysHeapSize hn hmax fuel with ⟨hnone, -⟩ | ⟨-, hsmall⟩ |
      ⟨a, z, s'', blocks', fl', hsome, hheap, -, -, hused, -⟩
    · rw [hnone] at hnull
      nomatch hnull
    · exact hsmall
    · rw [hsome] at hnull
      have hzero := (Prod.mk.inj (Option.some.inj hnull)).1
      have hbounds := hheap.bounds (mem_used.mp ((hused _).mpr (Or.inl rfl))).1
      dsimp only at hbounds
      have hne := (addr_eq_zero (by omega)).mp hzero
      omega
  · rintro rfl
    exact hinv.restored

/-- An allocator before its first call, in a memory of 128 bytes. -/
def unusedHeap : AllocState := ⟨⟨128, fun _ => 0⟩, 0#32, 0#32, 0#32, false⟩

/-- A heap of 80 bytes with two blocks. They are freed one after the other, and the second joins the free blocks on both sides of it. -/
theorem heapRun_consistent_two : ∃ s blocks fl blocks' fl', HeapConsistent 16#32 80#32 s [(36, 9), (20, 5)] blocks fl ∧
    HeapConsistent 16#32 80#32 (cvmFree (addr 36) (cvmFree (addr 20) s)) [] blocks' fl' := by
  have hcalls : ((cvmMalloc 16#32 80#32 2 (addr 5) (cvmAllocInit 16#32 80#32 unusedHeap)).bind fun r =>
      (cvmMalloc 16#32 80#32 2 (addr 9) r.2).map fun r' => (r.1, r'.1)) = some (20#32, 36#32) := by decide +kernel
  obtain ⟨⟨p, s₁⟩, hs₁, hsecond⟩ := Option.bind_eq_some_iff.mp hcalls
  obtain ⟨⟨q, s⟩, hs, hpq⟩ := Option.map_eq_some_iff.mp hsecond
  obtain ⟨rfl, rfl⟩ := Prod.mk.inj hpq
  have hfirst : HeapRun 16#32 80#32 unusedHeap s₁ [(20, 5)] := by
    have h := HeapRun.malloc .init (by decide) (by decide) hs₁
    rwa [if_neg (by decide)] at h
  have hrun : HeapRun 16#32 80#32 unusedHeap s [(36, 9), (20, 5)] := by
    have h := hfirst.malloc (by decide) (by decide) hs
    rwa [if_neg (by decide)] at h
  obtain ⟨blocks, fl, hboth⟩ := heapRun_consistent (by rfl) (by decide) (by decide) (by decide) hrun
  have hlast : (20, 5) ∈ [(36, 9), (20, 5)] := List.mem_cons_of_mem _ List.mem_cons_self
  have hone : HeapRun 16#32 80#32 unusedHeap (cvmFree (addr 20) s) [(36, 9)] := hrun.free hlast
  have hmem : (36, 9) ∈ [(36, 9)] := List.mem_cons_self
  have hfree : ∀ s', HeapRun 16#32 80#32 unusedHeap s' [(36, 9)] → HeapRun 16#32 80#32 unusedHeap (cvmFree (addr 36) s') [] :=
    fun s' hrun' => hrun'.free hmem
  have hnone := hfree _ hone
  obtain ⟨blocks', fl', hempty⟩ := heapRun_consistent (by rfl) (by decide) (by decide) (by decide) hnone
  exact ⟨s, blocks, fl, blocks', fl', hboth, hempty⟩

end CronoVM
