import CronoVM.Theorems.Alloc

/-!
# The size of an allocation

Every run of `cvm_malloc` and `cvm_free` with any requests, those included whose rounding wraps: the heap stays consistent, but a request
from 2 ^ 31 - 11 on is answered by any free block.
-/

namespace CronoVM

open Links Tiling

variable {sysHeapStart sysHeapSize : Word} {s₀ s : AllocState} {live : List (Nat × Nat)}

/-- The size of the payload behind a pointer, by the header of its block. -/
def payloadSize (m : Mem) (p : Word) : Int := (cvmSize m (p - cvmHdr)).toInt - 8

/-- The states that allocations and releases reach, with the live pointers and the sizes of their payloads. The program writes to payloads
and outside the heap. -/
inductive HeapReach (sysHeapStart sysHeapSize : Word) (s₀ : AllocState) : AllocState → List (Nat × Nat) → Prop
  | init : HeapReach sysHeapStart sysHeapSize s₀ (cvmAllocInit sysHeapStart sysHeapSize s₀) []
  | malloc {s s' : AllocState} {live : List (Nat × Nat)} {fuel : Nat} {bytes p : Word} : HeapReach sysHeapStart sysHeapSize s₀ s live →
      cvmMalloc sysHeapStart sysHeapSize fuel bytes s = some (p, s') →
      HeapReach sysHeapStart sysHeapSize s₀ s' (if p = 0#32 then live else (p.toNat, (payloadSize s'.mem p).toNat) :: live)
  | free {s : AllocState} {live : List (Nat × Nat)} {l : Nat × Nat} : HeapReach sysHeapStart sysHeapSize s₀ s live → l ∈ live →
      HeapReach sysHeapStart sysHeapSize s₀ (cvmFree (addr l.1) s) (live.filter fun l' => l'.1 ≠ l.1)
  | write {s : AllocState} {live : List (Nat × Nat)} {m' : Mem} : HeapReach sysHeapStart sysHeapSize s₀ s live →
      ProgramWrites sysHeapStart.toNat (span (initialBlocks sysHeapSize)) live s.mem m' →
      HeapReach sysHeapStart sysHeapSize s₀ { s with mem := m' } live

namespace AllocSizesAux

/-- A request that is positive as an `int` is the same number with and without sign. -/
theorem toInt_of_pos {bytes : Word} (hpos : ¬bytes.sle 0#32 = true) :
    1 ≤ bytes.toNat ∧ bytes.toNat < 2 ^ 31 ∧ bytes.toInt = bytes.toNat := by
  rw [BitVec.sle_eq_decide, decide_eq_true_eq, BitVec.toInt_eq_toNat_cond] at hpos
  rw [BitVec.toInt_eq_toNat_cond]
  have hzero : (0#32).toInt = 0 := rfl
  have hlt := bytes.isLt
  split at hpos
  · omega
  · omega

/-- The size of a payload, by the block. -/
theorem payloadSize_eq {start a k : Nat} {blocks : List Chunk} {fl : List Nat} (h : Heap start s blocks fl)
    (hmem : (a, ⟨k + 8, false⟩) ∈ used start blocks) : payloadSize s.mem (addr (a + 4)) = k ∧ k ≤ 2 ^ 31 - 12 := by
  have hplace := (mem_used.mp hmem).1
  have hbounds := h.bounds hplace
  have hsize := h.cvmSize_eq hplace
  dsimp only at hbounds hsize
  rw [payloadSize, show cvmHdr = addr 4 from rfl, addr_sub (Nat.le_add_left 4 a), Nat.add_sub_cancel, hsize,
    BitVec.toInt_eq_toNat_of_lt (by rw [toNat_addr (by omega)]; omega), toNat_addr (by omega)]
  omega

section call

variable {blocks : List Chunk} {fl : List Nat} (h : RunInvariant sysHeapStart sysHeapSize s live blocks fl) {bytes p : Word} {s' : AllocState}
include h

/-- What a call of `cvm_malloc` hands out is live from then on, with the payload of its block. -/
theorem handed {a z : Nat} {blocks' : List Chunk} {fl' : List Nat} (hp : p = addr (a + 4)) (hheap : Heap sysHeapStart.toNat s' blocks' fl')
    (hspan : span blocks' = span blocks)
    (hused : ∀ x, x ∈ used sysHeapStart.toNat blocks' ↔ x = (a, ⟨z, false⟩) ∨ x ∈ used sysHeapStart.toNat blocks)
    (hfresh : ∀ x ∈ used sysHeapStart.toNat blocks, x.1 ≠ a) : ∃ k : Nat, p ≠ 0#32 ∧ payloadSize s'.mem p = k ∧ k ≤ 2 ^ 31 - 12 ∧
      z = k + 8 ∧ RunInvariant sysHeapStart sysHeapSize s' ((p.toNat, k) :: live) blocks' fl' := by
  have hmem := (hused _).mpr (Or.inl rfl)
  have hbounds := hheap.bounds (mem_used.mp hmem).1
  dsimp only at hbounds
  obtain ⟨k, rfl⟩ : ∃ k, z = k + 8 := ⟨z - 8, by omega⟩
  obtain ⟨hpayload, hle⟩ := payloadSize_eq hheap hmem
  obtain ⟨hne, haddr, hinv⟩ := h.malloc hheap hspan hused hfresh (Nat.le_refl _)
  rw [hp, haddr]
  exact ⟨k, hne, hpayload, hle, rfl, hinv⟩

/-- What a call returns: null, or the payload of a block that was not in use, large enough if the request did not wrap. -/
theorem malloc_cases {fuel : Nat} (hcall : cvmMalloc sysHeapStart sysHeapSize fuel bytes s = some (p, s')) :
    (p = 0#32 ∧ s' = s) ∨ ∃ (k : Nat) (blocks' : List Chunk) (fl' : List Nat), p ≠ 0#32 ∧ payloadSize s'.mem p = k ∧ k ≤ 2 ^ 31 - 12 ∧
      RunInvariant sysHeapStart sysHeapSize s' ((p.toNat, k) :: live) blocks' fl' ∧ (bytes.toInt ≤ 2 ^ 31 - 12 → bytes.toInt ≤ k) := by
  by_cases hneg : bytes.sle 0#32 = true
  · unfold cvmMalloc at hcall
    rw [if_pos h.inited] at hcall
    dsimp only at hcall
    rw [if_pos hneg] at hcall
    obtain ⟨rfl, rfl⟩ := Prod.mk.inj (Option.some.inj hcall)
    exact Or.inl ⟨rfl, rfl⟩
  · obtain ⟨hpos, hlt, hint⟩ := toInt_of_pos hneg
    rw [← addr_toNat bytes] at hcall
    by_cases hlarge : bytes.toNat ≤ 2 ^ 31 - 12
    · rcases h.toHeap.cvmMalloc_cases sysHeapStart sysHeapSize hpos hlarge fuel with
        ⟨hnone, -⟩ | ⟨hnull, -⟩ | ⟨a, z, s'', blocks', fl', hsome, hheap, hspan, hz, hused, hfresh⟩
      · rw [hnone] at hcall
        nomatch hcall
      · rw [hnull] at hcall
        obtain ⟨rfl, rfl⟩ := Prod.mk.inj (Option.some.inj hcall)
        exact Or.inl ⟨rfl, rfl⟩
      · rw [hsome] at hcall
        obtain ⟨hp, rfl⟩ := Prod.mk.inj (Option.some.inj hcall)
        have hwanted := wantedSize_bounds hlarge
        obtain ⟨k, hne, hpayload, hle, rfl, hinv⟩ := handed h hp.symm hheap hspan hused hfresh
        exact Or.inr ⟨k, blocks', fl', hne, hpayload, hle, hinv, fun _ => by omega⟩
    · rcases h.toHeap.cvmMalloc_large sysHeapStart sysHeapSize (Nat.lt_of_not_le hlarge) hlt fuel with
        ⟨hnone, -⟩ | ⟨hnull, -⟩ | ⟨a, z, s'', blocks', fl', hsome, hheap, hspan, hused, hfresh⟩
      · rw [hnone] at hcall
        nomatch hcall
      · rw [hnull] at hcall
        obtain ⟨rfl, rfl⟩ := Prod.mk.inj (Option.some.inj hcall)
        exact Or.inl ⟨rfl, rfl⟩
      · rw [hsome] at hcall
        obtain ⟨hp, rfl⟩ := Prod.mk.inj (Option.some.inj hcall)
        obtain ⟨k, hne, hpayload, hle, rfl, hinv⟩ := handed h hp.symm hheap hspan hused hfresh
        exact Or.inr ⟨k, blocks', fl', hne, hpayload, hle, hinv, fun _ => by omega⟩

/-- A request that wraps is answered if there is a free block. -/
theorem malloc_large (hlarge : 2 ^ 31 - 12 < bytes.toInt) (hfree : s.freeHead ≠ 0#32) :
    ∃ fuel p s', cvmMalloc sysHeapStart sysHeapSize fuel bytes s = some (p, s') ∧ p ≠ 0#32 := by
  have hneg : ¬bytes.sle 0#32 = true := by
    rw [BitVec.sle_eq_decide, decide_eq_true_eq]
    have hzero : (0#32).toInt = 0 := rfl
    omega
  obtain ⟨-, hlt, hint⟩ := toInt_of_pos hneg
  rcases h.toHeap.cvmMalloc_large (n := bytes.toNat) sysHeapStart sysHeapSize (by omega) hlt (fl.length + 1) with
    ⟨-, hfuel⟩ | ⟨-, hnil⟩ | ⟨a, z, s', blocks', fl', hsome, hheap, hspan, hused, hfresh⟩
  · exact absurd hfuel (Nat.not_succ_le_self _)
  · rw [h.toHeap.freeHead_eq, hnil] at hfree
    exact absurd rfl hfree
  · obtain ⟨k, hne, -⟩ := handed h rfl hheap hspan hused hfresh
    rw [addr_toNat] at hsome
    exact ⟨_, _, s', hsome, hne⟩

omit h in
/-- At the end of the free list the search gives the null pointer. -/
theorem walk_null (want : Word) (fuel : Nat) (hcall : cvmMallocWalk want s fuel 0#32 = some (p, s')) : p = 0#32 := by
  cases fuel with
  | zero => nomatch hcall
  | succ fuel =>
    rw [cvmMallocWalk, if_neg (fun hne => hne rfl)] at hcall
    exact (Prod.mk.inj (Option.some.inj hcall)).1.symm

/-- Without a free block the answer is null. -/
theorem malloc_null (hfree : s.freeHead = 0#32) {fuel : Nat} (hcall : cvmMalloc sysHeapStart sysHeapSize fuel bytes s = some (p, s')) :
    p = 0#32 := by
  unfold cvmMalloc at hcall
  rw [if_pos h.inited] at hcall
  dsimp only at hcall
  split at hcall
  · exact (Prod.mk.inj (Option.some.inj hcall)).1.symm
  · rw [hfree] at hcall
    exact walk_null _ _ hcall

end call

end AllocSizesAux

open AllocSizesAux

/-- Calls with any size, also those that are no positive `int`, keep the invariant. -/
theorem HeapReach.invariant (h : HeapReach sysHeapStart sysHeapSize s₀ s live) (hinited : s₀.inited = false) (hpos : 0 < sysHeapStart.toNat)
    (hroom : sysHeapStart.toNat + sysHeapSize.toNat ≤ s₀.mem.size) (hmem : s₀.mem.size < 2 ^ 32) :
    ∃ blocks fl, RunInvariant sysHeapStart sysHeapSize s live blocks fl := by
  induction h with
  | init => exact RunInvariant.init hinited hpos hroom hmem
  | malloc _ hcall ih =>
    obtain ⟨blocks, fl, hinv⟩ := ih
    rcases malloc_cases hinv hcall with ⟨rfl, rfl⟩ | ⟨k, blocks', fl', hne, hpayload, -, hinv', -⟩
    · rw [if_pos rfl]
      exact ⟨blocks, fl, hinv⟩
    · rw [if_neg hne, hpayload, Int.toNat_natCast]
      exact ⟨blocks', fl', hinv'⟩
  | free _ hl ih =>
    obtain ⟨blocks, fl, hinv⟩ := ih
    exact hinv.free hl
  | write _ hwrites ih =>
    obtain ⟨blocks, fl, hinv⟩ := ih
    exact ⟨blocks, fl, hinv.write hwrites⟩

/-- A pointer that `cvm_malloc` returns for a request has a payload of that many bytes behind it. -/
def AllocatesEnough (sysHeapStart sysHeapSize : Word) (s : AllocState) (bytes : Word) : Prop :=
  ∀ fuel p s', cvmMalloc sysHeapStart sysHeapSize fuel bytes s = some (p, s') → p ≠ 0#32 → bytes.toInt ≤ payloadSize s'.mem p

/-- In every state that is reached, a request gets enough or null exactly if it is at most 2 ^ 31 - 12, or no block is free. -/
theorem allocates_enough_iff (hinited : s₀.inited = false) (hpos : 0 < sysHeapStart.toNat)
    (hroom : sysHeapStart.toNat + sysHeapSize.toNat ≤ s₀.mem.size) (hmem : s₀.mem.size < 2 ^ 32)
    (h : HeapReach sysHeapStart sysHeapSize s₀ s live) (bytes : Word) :
    AllocatesEnough sysHeapStart sysHeapSize s bytes ↔ bytes.toInt ≤ 2 ^ 31 - 12 ∨ s.freeHead = 0#32 := by
  obtain ⟨blocks, fl, hinv⟩ := h.invariant hinited hpos hroom hmem
  constructor
  · intro henough
    by_contra hnot
    obtain ⟨hlarge, hfree⟩ := not_or.mp hnot
    obtain ⟨fuel, p, s', hcall, hne⟩ := malloc_large hinv (Int.not_le.mp hlarge) hfree
    have hle := henough fuel p s' hcall hne
    rcases malloc_cases hinv hcall with ⟨hnull, -⟩ | ⟨k, blocks', fl', -, hpayload, hmax, -, -⟩
    · exact hne hnull
    · omega
  · rintro hcond fuel p s' hcall hne
    rcases malloc_cases hinv hcall with ⟨hnull, -⟩ | ⟨k, blocks', fl', -, hpayload, hmax, -, hsmall⟩
    · exact absurd hnull hne
    · rw [hpayload]
      rcases hcond with hle | hfree
      · exact hsmall hle
      · exact absurd (malloc_null hinv hfree hcall) hne

/-- A heap of 32 bytes. -/
def smallHeap : AllocState := cvmAllocInit 16#32 32#32 ⟨⟨64, fun _ => 0⟩, 0#32, 0#32, 0#32, false⟩

/-- A request of 5 bytes in a heap of 32. -/
theorem allocates_enough_iff_smallHeap : AllocatesEnough 16#32 32#32 smallHeap 5#32 :=
  (allocates_enough_iff (by rfl) (by decide) (by decide) (by decide) .init 5#32).mpr (Or.inl (by decide))

/-- The largest request gets 8 bytes. -/
theorem smallHeap_not_enough : ¬AllocatesEnough 16#32 32#32 smallHeap 0x7FFFFFFF#32 := by
  have hcall : ∃ s', cvmMalloc 16#32 32#32 1 0x7FFFFFFF#32 smallHeap = some (20#32, s') ∧ payloadSize s'.mem 20#32 = 8 :=
    ⟨_, rfl, by decide +kernel⟩
  obtain ⟨s', hcall, hpayload⟩ := hcall
  intro henough
  have hle := henough 1 20#32 s' hcall (by decide)
  rw [hpayload] at hle
  exact absurd hle (by decide)

end CronoVM
