import CronoVM.Lemmas.LoadPlan
import CronoVM.Lib.NarrowInt

/-!
# What the loader makes of a loadable file

`ImageOf` says field by field which image belongs to a file. `cvmLoadEx` returns it for every loadable file whose function table
stays in the code, unless an allocation fails; every other file it rejects.
-/

namespace CronoVM

open Checked

/-! ## The image of a file -/

/-- The `n` words at `off`. -/
def wordsAt (base : List Byte) (off n : Nat) : List Word := (List.range n).map fun i => u32At base (off + i * 4)

/-- The function table of a file stays in its code. -/
def FuncsOk (base : List Byte) : Prop :=
  ∀ i, i < (fileSize base .funcs / 4).toNat → u32At base ((fileOff base .funcs).toNat + i * 4) < fileSize base .code / 4

/-- The memory of a file: DATA, then zeros, with the ROM in its slice. -/
structure MemoryOf (base : List Byte) (m : Mem) : Prop where
  size : m.size = fileMemTotal base
  data : ∀ k, k < (fileSize base .data).toNat → m.byte k = base.getD ((fileOff base .data).toNat + k) 0
  rom : ∀ k, k < (fileSize base .rom).toNat → m.byte (fileRomStart base + k) = base.getD ((fileOff base .rom).toNat + k) 0
  zero : ∀ i, (fileSize base .data).toNat ≤ i → i < fileMemTotal base →
    ¬(fileRomStart base ≤ i ∧ i < fileRomStart base + (fileSize base .rom).toNat) → m.byte i = 0

/-- Region `i` of a file. -/
def regionOf (base : List Byte) (i : Nat) : Region :=
  let rp := (fileOff base .hostRegion).toNat
  { name := regionName base rp i
    offset := BitVec.ofNat 32 ((fileSize base .data).toNat + (fileSize base .bss).toNat + alignedBefore base rp i)
    size := regionSize base rp i
    direction := u32At base (rp + 4 + i * regionEntrySize + 20) }

/-- The bytes of the import section. -/
def importBlobOf (base : List Byte) : List Byte := sliceAt base (fileOff base .imports).toNat (fileSize base .imports).toNat

/-- The import name `i` starts at this offset of the blob. -/
def importStartOf (base : List Byte) (i : Nat) : Nat := (importOff base (fileOff base .imports).toNat i).toNat

/-- The image `cvm_load_ex` makes of a file. -/
structure ImageOf {κ : Type} (base : List Byte) (img : Image κ) : Prop where
  code : img.code = wordsAt base (fileOff base .code).toNat (fileSize base .code / 4).toNat
  codeCount : img.codeCount = fileSize base .code / 4
  memory : MemoryOf base img.heap
  heapSize : img.heapSize = BitVec.ofNat 32 (fileHeapTotal base)
  dataSize : img.dataSize = fileSize base .data
  reserveSize : img.reserveSize = fileSize base .heapReserve
  stackSize : img.stackSize = fileSize base .stackReserve
  memSize : img.memSize = BitVec.ofNat 32 (fileMemTotal base)
  regions : img.regions = (List.range (fileRegionCount base).toNat).map (regionOf base)
  regionCount : img.regionCount = fileRegionCount base
  romOffset : fileSize base .rom ≠ 0 → img.romOffset.toNat = fileRomStart base
  romOffset_zero : fileSize base .rom = 0 → img.romOffset = 0
  romSize : img.romSize = fileSize base .rom
  entry : img.entry = u32At base 20
  funcOffsets : img.funcOffsets = if fileSize base .funcs > 0 then
    some (wordsAt base (fileOff base .funcs).toNat (fileSize base .funcs / 4).toNat) else none
  funcCount : img.funcCount = fileSize base .funcs / 4
  importCount : img.importCount = fileImportCount base
  importNames : img.importNames = (List.range (fileImportCount base).toNat).map (importStartOf base)
  importFns : img.importFns.length = (fileImportCount base).toNat
  importBlob : fileSize base .imports > 0 → img.importBlob = importBlobOf base

/-- An allocation has failed: the allocator answered a request with NULL. -/
def AllocFailed {A : Type} (al : Allocator A) (s : LoadState A) : Prop :=
  ∃ via n a, AllocEvent.alloc via n none ∈ s.events ∧ (al.alloc via n a).1 = none

namespace LoadAux

variable {A : Type} (al : Allocator A) {base : List Byte} {p : LoadPlan} {s : LoadState A}

/-! ## Allocation -/

/-- A request for memory: it keeps the blocks obtained so far, and answers NULL only when an allocation failed. -/
def Requests (m : Load A (Option Block)) : Prop :=
  ∀ s, Exec.wp m (fun b t => t.blocks = s.blocks ∧ (AllocFailed al s ∨ b = none → AllocFailed al t)) (fun _ _ => False) s

/-- An allocation of some bytes requests them. -/
theorem requests_alloc {n : Nat} (hn : n ≠ 0) : Requests al (cvmIntAlloc al n) := by
  intro s
  simp only [cvmIntAlloc, Exec.wp_ite, hn, false_implies, not_false_eq_true, true_implies, true_and, Exec.wp_bind, Exec.wp_get,
    Exec.wp_modify, Exec.wp_pure]
  rintro (⟨via, n, a, h, hnull⟩ | h)
  · exact ⟨via, n, a, List.mem_append_left _ h, hnull⟩
  · exact ⟨_, n, _, List.mem_append_right _ (by rw [h]; exact List.mem_singleton.mpr rfl), h⟩

/-- So does a cleared one whose size does not overflow. -/
theorem requests_calloc {n size : Nat} (hn : n ≠ 0) (hsize : size ≠ 0) (hfit : ¬size > sizeMax / n) :
    Requests al (cvmIntCalloc al n size) := by
  intro s
  simp only [cvmIntCalloc, hfit, and_false, if_false, Exec.wp_bind, Exec.wp_pure]
  refine Exec.wp_mono (fun b t ht => ⟨ht.1, fun h => ht.2 ?_⟩) (fun _ _ h => h) (requests_alloc al (Nat.mul_ne_zero hn hsize) s)
  exact h.imp_right fun h => by simpa using h

/-- Freeing only adds to what was asked of the allocator. -/
theorem wp_freeEach (sels : List (Blocks → Option Block)) (s : LoadState A) :
    Exec.wp (freeEach al sels) (fun _ t => AllocFailed al s → AllocFailed al t) (fun _ _ => False) s := by
  induction sels generalizing s with
  | nil => exact fun h => h
  | cons sel sels ih =>
    have hfree : Exec.wp (cvmIntFree al (sel s.blocks)) (fun _ t => AllocFailed al s → AllocFailed al t) (fun _ _ => False) s := by
      unfold cvmIntFree
      cases sel s.blocks with
      | none => exact fun h => h
      | some b => exact fun ⟨via, n, a, h, hnull⟩ => ⟨via, n, a, List.mem_append_left _ h, hnull⟩
    rw [freeEach, Exec.wp_bind, Exec.wp_get, Exec.wp_bind]
    exact Exec.wp_mono (fun _ t ht => Exec.wp_mono (fun _ u hu h => hu (ht h)) (fun _ _ h => h) (ih t)) (fun _ _ h => h) hfree

/-- Freeing returns. -/
theorem freeEach_returns (sels : List (Blocks → Option Block)) (s : LoadState A) : ∃ t, freeEach al sels s = .val () t := by
  have hwp := wp_freeEach al sels s
  unfold Exec.wp at hwp
  cases hrun : freeEach al sels s with
  | val _ t => exact ⟨t, rfl⟩
  | stop _ _ =>
    rw [hrun] at hwp
    exact hwp.elim
  | oob =>
    rw [hrun] at hwp
    exact hwp.elim

/-- A load that gives up after a failed request says `CVM_E_NOMEM`. -/
theorem wp_oom {α : Type} {Q : α → LoadState A → Prop} (h : AllocFailed al s) :
    Exec.wp (oom al) Q (fun e t => e = .nomem ∧ AllocFailed al t) s := by
  rw [oom, Exec.wp_bind]
  exact Exec.wp_mono (fun _ t ht => ⟨rfl, ht h⟩) (fun _ _ h => h.elim) (wp_freeEach al _ s)

/-- A local that must not be NULL: it is set, or the load ends because memory ran out. -/
theorem wp_keepOrOom {request : Load A (Option Block)} {set : Option Block → Blocks → Blocks} {Q : Unit → LoadState A → Prop}
    (hreq : Requests al request) (hQ : ∀ b t, t.blocks = set (some b) s.blocks → Q () t) :
    Exec.wp (keepOrOom al request set) Q (fun e t => e = .nomem ∧ AllocFailed al t) s := by
  rw [keepOrOom, Exec.wp_bind]
  refine Exec.wp_mono (fun b t ht => ?_) (fun _ _ h => h.elim) (hreq s)
  rw [Exec.wp_bind, Exec.wp_modify]
  cases b with
  | none => exact wp_oom al (ht.2 (Or.inr rfl))
  | some b => exact hQ b _ (by rw [← ht.1])

/-- A step of the allocation that leaves the block of the heap alone. -/
def KeepsHeap (m : Load A Unit) : Prop :=
  ∀ s, Exec.wp m (fun _ t => t.blocks.heap = s.blocks.heap) (fun e t => e = .nomem ∧ AllocFailed al t) s

/-- A step under a condition. -/
theorem keepsHeap_when {c : Prop} [Decidable c] {m : Load A Unit} (h : c → KeepsHeap al m) : KeepsHeap al (Exec.when c m) := by
  intro s
  rw [Exec.wp_when]
  exact ⟨fun hc => h hc s, fun _ => rfl⟩

/-- A step after another one. -/
theorem keepsHeap_bind {m : Load A Unit} {k : Unit → Load A Unit} (hm : KeepsHeap al m) (hk : ∀ u, KeepsHeap al (k u)) :
    KeepsHeap al (m >>= k) := by
  intro s
  rw [Exec.wp_bind]
  exact Exec.wp_mono (fun u t ht => Exec.wp_mono (fun _ _ hv => hv.trans ht) (fun _ _ h => h) (hk u t)) (fun _ _ h => h) (hm s)

/-- A request whose block is kept, or the end of the load. -/
theorem keepsHeap_keepOrOom {request : Load A (Option Block)} {set : Option Block → Blocks → Blocks}
    (hreq : Requests al request) (hset : ∀ b bs, (set b bs).heap = bs.heap) : KeepsHeap al (keepOrOom al request set) :=
  fun _ => wp_keepOrOom al hreq fun b t ht => by rw [ht, hset]

/-- The requests for the import tables. -/
theorem keepsHeap_importTables {n : Nat} (hn : n ≠ 0) (hfit : ¬sizeofPtr > sizeMax / n) : KeepsHeap al (allocImportTables al n) := by
  have hreq : Requests al (cvmIntCalloc al n sizeofPtr) := requests_calloc al hn (by decide) hfit
  intro s
  rw [allocImportTables, Exec.wp_bind]
  refine Exec.wp_mono (fun names t ht => ?_) (fun _ _ h => h.elim) (hreq s)
  rw [Exec.wp_bind]
  refine Exec.wp_mono (fun fns u hu => ?_) (fun _ _ h => h.elim) (hreq t)
  rw [Exec.wp_bind]
  refine Exec.wp_mono (fun ud v hv => ?_) (fun _ _ h => h.elim) (hreq u)
  rw [Exec.wp_bind, Exec.wp_modify, Exec.wp_when]
  refine ⟨fun hnone => wp_oom al ?_, fun _ => by rw [hv.1, hu.1, ht.1]⟩
  have hfailed : AllocFailed al v := by
    rcases hnone with h | h | h
    · exact hv.2 (Or.inl (hu.2 (Or.inl (ht.2 (Or.inr (Option.isNone_iff_eq_none.mp h))))))
    · exact hv.2 (Or.inl (hu.2 (Or.inr (Option.isNone_iff_eq_none.mp h))))
    · exact hv.2 (Or.inr (Option.isNone_iff_eq_none.mp h))
  exact hfailed

/-- The allocations: with memory in use there is a block for it. -/
theorem wp_loadAlloc (hcode : p.sections.size .code ≠ 0) (hregions : p.regionCount.toNat ≤ 0xFFFF)
    (himports : p.importCount.toNat ≤ 0xFFFF) :
    Exec.wp (loadAlloc al p) (fun _ t => p.memTotal > 0 → t.blocks.heap ≠ none)
      (fun e t => e = .nomem ∧ AllocFailed al t) s := by
  have hne : ∀ {w : Word}, w ≠ 0 → w.toNat ≠ 0 := fun h h0 => h (BitVec.eq_of_toNat_eq (by simpa using h0))
  have hpos : ∀ {w : Word}, w > 0 → w.toNat ≠ 0 := fun h h0 => by simp [BitVec.lt_def, h0] at h
  have hfit : ∀ {n size : Nat}, n ≤ 0xFFFF → n ≠ 0 → size ≤ 28 → ¬size > sizeMax / n := by
    intro n size hn hn0 hsize
    have hdiv : sizeMax / 0xFFFF ≤ sizeMax / n := Nat.div_le_div_left hn (Nat.pos_of_ne_zero hn0)
    have h28 : 28 ≤ sizeMax / 0xFFFF := by decide
    omega
  have htables : KeepsHeap al (do
      Exec.when (p.sections.size .funcs > 0)
        (keepOrOom al (cvmIntAlloc al (p.sections.size .funcs).toNat) fun b bs => { bs with funcOffsets := b })
      Exec.when (p.regionCount > 0)
        (keepOrOom al (cvmIntCalloc al p.regionCount.toNat sizeofRegion) fun b bs => { bs with regions := b })
      Exec.when (p.sections.size .imports > 0) do
        keepOrOom al (cvmIntAlloc al (p.sections.size .imports).toNat) fun b bs => { bs with importBlob := b }
        Exec.when (p.importCount > 0) (allocImportTables al p.importCount.toNat)) := by
    refine keepsHeap_bind al (keepsHeap_when al fun h => keepsHeap_keepOrOom al (requests_alloc al (hpos h)) fun _ _ => rfl) fun _ => ?_
    refine keepsHeap_bind al (keepsHeap_when al fun h => keepsHeap_keepOrOom al
      (requests_calloc al (hpos h) (by decide) (hfit hregions (hpos h) (by decide))) fun _ _ => rfl) fun _ => ?_
    refine keepsHeap_when al fun h => keepsHeap_bind al (keepsHeap_keepOrOom al (requests_alloc al (hpos h)) fun _ _ => rfl) fun _ => ?_
    exact keepsHeap_when al fun h => keepsHeap_importTables al (hpos h) (hfit himports (hpos h) (by decide))
  rw [loadAlloc, Exec.wp_bind]
  refine wp_keepOrOom al (requests_alloc al (hne hcode)) fun b t _ => ?_
  rw [Exec.wp_bind, Exec.wp_when]
  refine ⟨fun hmem => wp_keepOrOom al (requests_alloc al (Nat.ne_of_gt hmem)) fun b u hu => ?_, fun hmem => ?_⟩
  · refine Exec.wp_mono (fun _ v hv _ => ?_) (fun _ _ h => h) (htables u)
    rw [hv, hu]
    exact Option.some_ne_none b
  · exact Exec.wp_mono (fun _ v _ h => absurd h hmem) (fun _ _ h => h) (htables t)

/-! ## Materialisation -/

/-- One word more. -/
theorem wordsAt_succ (off n : Nat) : wordsAt base off (n + 1) = wordsAt base off n ++ [u32At base (off + n * 4)] := by
  simp [wordsAt, List.range_succ]

/-- The code that is read is the file's. -/
theorem wp_loadCode (h : (p.sections.off .code).toNat + p.codeCount.toNat * 4 ≤ base.length) :
    Exec.wp (loadCode base p) (fun code t => t = s ∧ code = wordsAt base (p.sections.off .code).toNat p.codeCount.toNat)
      (fun _ _ => False) s := by
  refine Exec.wp_forRange (fun i code t => t = s ∧ code = wordsAt base (p.sections.off .code).toNat i) ⟨rfl, rfl⟩ ?_
    fun _ _ h => h
  rintro i hi _ t ⟨rfl, rfl⟩
  simp only [Exec.wp_bind, wp_readU32Le, Exec.wp_pure]
  exact ⟨by omega, trivial, (wordsAt_succ _ i).symm⟩

/-- A slice of the file, read at an index of it. -/
theorem getD_sliceAt {off n k : Nat} (hk : k < n) : (sliceAt base off n).getD k 0 = base.getD (off + k) 0 := by
  simp only [sliceAt, List.getD_eq_getElem?_getD]
  rw [List.getElem?_take_of_lt hk, List.getElem?_drop]

/-- A word inside a slice is the word of the file. -/
theorem u32At_sliceAt {off n k : Nat} (hk : k + 4 ≤ n) : u32At (sliceAt base off n) k = u32At base (off + k) :=
  leWord_congr fun j hj => by rw [getD_sliceAt (by omega), Nat.add_assoc]

/-- A slice of the file has its length. -/
theorem length_sliceAt {off n : Nat} (h : off + n ≤ base.length) : (sliceAt base off n).length = n := by
  simp only [sliceAt, List.length_take, List.length_drop]
  omega

/-- The start of the ROM does not wrap around. -/
theorem toNat_fileRomStart (hk : Loadable base) :
    (fileSize base .data + fileSize base .bss + BitVec.ofNat 32 (fileRegionTotal base)).toNat = fileRomStart base := by
  have hle := hk.heap_le
  simp only [fileHeapTotal, fileRomStart] at hle ⊢
  simp only [BitVec.toNat_add, BitVec.toNat_ofNat]
  omega

/-- A section is copied to its place. -/
theorem wp_copyIn {m : Mem} {dst off n : Nat} {E : CvmResult → LoadState A → Prop} (hfile : off + n ≤ base.length)
    (hmem : dst + n ≤ m.size) :
    Exec.wp (copyIn base m dst off n) (fun m' t => t = s ∧ m' = m.blit dst n fun k => base.getD (off + k) 0) E s := by
  simp only [copyIn, fillHeap, Exec.wp_ite, Exec.wp_bind, wp_readSlice, Exec.wp_demand, Exec.wp_pure]
  refine ⟨fun _ => ⟨hfile, hmem, trivial, m.blit_congr fun k hk => getD_sliceAt hk⟩, fun hn => ⟨trivial, ?_⟩⟩
  rw [not_not.mp hn, Mem.blit_zero]

/-- The memory up to a limit is cleared. -/
theorem wp_zeroFill {m : Mem} {d n : Nat} {E : CvmResult → LoadState A → Prop} (hmem : n ≤ m.size) :
    Exec.wp (zeroFill m d n) (fun m' t => t = s ∧ m' = m.blit d (n - d) fun _ => 0) E s := by
  simp only [zeroFill, fillHeap, Exec.wp_ite, Exec.wp_bind, Exec.wp_demand, Exec.wp_pure]
  refine ⟨fun h => ⟨by omega, trivial, trivial⟩, fun hn => ⟨trivial, ?_⟩⟩
  rw [Nat.sub_eq_zero_of_le (Nat.le_of_not_lt hn), Mem.blit_zero]

/-- The memory, from the block it is built in. -/
theorem wp_loadHeap (hk : Loadable base) (hp : PlanOf base p) (hblock : p.memTotal > 0 → s.blocks.heap ≠ none) :
    Exec.wp (loadHeap base p) (fun m t => t = s ∧ MemoryOf base m) (fun _ _ => False) s := by
  have hdata := hp.size .data (by simp [Kept])
  have hrom := hp.size .rom (by simp [Kept])
  have hdoff := hp.off .data (by simp [Kept]) rfl
  have hroff := hp.off .rom (by simp [Kept]) rfl
  have hstart : p.romOffset.toNat = fileRomStart base := by rw [hp.romOffset, toNat_fileRomStart hk]
  have hmem := hp.memTotal
  have hdpay : (fileOff base .data).toNat + (fileSize base .data).toNat ≤ base.length := payload_le hk.sections rfl
  have hrpay : (fileOff base .rom).toNat + (fileSize base .rom).toNat ≤ base.length := payload_le hk.sections rfl
  have hle : fileRomStart base + (fileSize base .rom).toNat ≤ fileMemTotal base := by
    simp only [fileMemTotal, fileHeapTotal]; omega
  have hdle : (fileSize base .data).toNat ≤ fileRomStart base := by simp only [fileRomStart]; omega
  simp only [loadHeap, Exec.wp_bind, Exec.wp_get, hdata, hrom, hdoff, hroff, hstart, hmem]
  have hsize : (heapBlock s.blocks.heap (fileMemTotal base)).size = fileMemTotal base := by
    cases hb : s.blocks.heap with
    | none =>
      have : ¬p.memTotal > 0 := fun h => hblock h hb
      simp only [heapBlock]
      omega
    | some b => rfl
  generalize heapBlock s.blocks.heap (fileMemTotal base) = m₀ at hsize ⊢
  refine Exec.wp_mono ?_ (fun _ _ h => h) (wp_copyIn (s := s) hdpay (by omega))
  rintro _ t ⟨rfl, rfl⟩
  refine Exec.wp_mono ?_ (fun _ _ h => h) (wp_zeroFill (s := t) (n := fileMemTotal base) (Nat.le_of_eq hsize.symm))
  rintro _ u ⟨rfl, rfl⟩
  refine Exec.wp_mono ?_ (fun _ _ h => h) (wp_copyIn (s := u) hrpay (by simp only [Mem.blit_size]; omega))
  rintro _ v ⟨rfl, rfl⟩
  refine ⟨rfl, hsize, fun k hk => ?_, fun k hk => ?_, fun i hd hi hr => ?_⟩
  · rw [Mem.blit_byte_of_lt _ _ (by omega), Mem.blit_byte_of_lt _ _ (by omega)]
    simpa using Mem.blit_byte_add m₀ (p := 0) _ hk
  · exact Mem.blit_byte_add _ _ hk
  · rw [Mem.blit_byte, if_neg hr, Mem.blit_byte, if_pos (by omega)]

/-- What a bad function table frees. -/
def badFuncsFrees : List (Blocks → Option Block) :=
  [Blocks.code, Blocks.heap, Blocks.funcOffsets, Blocks.regions, Blocks.importBlob, Blocks.importNames, Blocks.importFns, Blocks.importUd]

/-- The function table: a list of places in the code, or everything is freed because it holds another word. -/
theorem wp_loadFuncs (hk : Loadable base) (hp : PlanOf base p) :
    Exec.wp (loadFuncs al base p)
      (fun r t => t = s ∧ FuncsOk base ∧ r = if fileSize base .funcs > 0 then
        some (wordsAt base (fileOff base .funcs).toNat (fileSize base .funcs / 4).toNat) else none)
      (fun e t => (e = .badFuncs ∧ ¬FuncsOk base) ∧ freeEach al badFuncsFrees s = .val () t) s := by
  have hsize := hp.size .funcs (by simp [Kept])
  have hoff := hp.off .funcs (by simp [Kept]) rfl
  have hpay : (fileOff base .funcs).toNat + (fileSize base .funcs).toNat ≤ base.length := payload_le hk.sections rfl
  have hdiv : (fileSize base .funcs / 4).toNat = (fileSize base .funcs).toNat / 4 := BitVec.toNat_udiv
  simp only [loadFuncs, hsize, hoff, hp.codeCount, Exec.wp_ite, Exec.wp_bind, Exec.wp_pure]
  refine ⟨fun hpos => ?_, fun hzero => ⟨trivial, fun i hi => ?_, (if_neg hzero).symm⟩⟩
  · refine Exec.wp_forRange (fun i funcs t => t = s ∧ funcs = wordsAt base (fileOff base .funcs).toNat i ∧
      ∀ j, j < i → u32At base ((fileOff base .funcs).toNat + j * 4) < fileSize base .code / 4)
      ⟨rfl, rfl, fun _ h => absurd h (Nat.not_lt_zero _)⟩ ?_ ?_
    · rintro i hi _ t ⟨rfl, rfl, hok⟩
      simp only [Exec.wp_bind, wp_readU32Le, Exec.wp_ite, Exec.wp_pure, Exec.wp_stop]
      refine ⟨by omega, fun hbad => ?_, fun hgood => ⟨trivial, (wordsAt_succ _ i).symm, fun j hj => ?_⟩⟩
      · obtain ⟨u, hfree⟩ := freeEach_returns al badFuncsFrees t
        have hfree' : freeEach al [Blocks.code, Blocks.heap, Blocks.funcOffsets, Blocks.regions, Blocks.importBlob, Blocks.importNames,
          Blocks.importFns, Blocks.importUd] t = .val () u := hfree
        unfold Exec.wp
        rw [hfree']
        exact ⟨⟨trivial, fun hf => absurd hbad (BitVec.not_le.mpr (hf i hi))⟩, hfree⟩
      · rcases Nat.lt_succ_iff_lt_or_eq.mp hj with hlt | rfl
        · exact hok j hlt
        · exact BitVec.not_le.mp hgood
    · rintro _ t ⟨rfl, rfl, hok⟩
      exact ⟨rfl, hok, (if_pos hpos).symm⟩
  · have hz : (fileSize base .funcs).toNat = 0 := by simpa [BitVec.lt_def] using hzero
    omega

/-- The import blob and the places of the names in it. -/
theorem wp_loadImportNames (hk : Loadable base) (hp : PlanOf base p) :
    Exec.wp (loadImportNames base p)
      (fun r t => t = s ∧ (fileSize base .imports > 0 → r.1 = importBlobOf base) ∧
        r.2 = (List.range (fileImportCount base).toNat).map (importStartOf base))
      (fun _ _ => False) s := by
  have hsize := hp.size .imports (by simp [Kept])
  have hoff := hp.off .imports (by simp [Kept]) rfl
  have hpay : (fileOff base .imports).toNat + (fileSize base .imports).toNat ≤ base.length := payload_le hk.sections rfl
  simp only [loadImportNames, hsize, hoff, hp.importCount, Exec.wp_ite, Exec.wp_bind, wp_readSlice, Exec.wp_pure]
  refine ⟨fun hpos => ⟨hpay, ?_⟩, fun hzero => ⟨trivial, fun h => absurd h hzero, ?_⟩⟩
  · have hend := (hk.imports hpos).entries_end
    have hcount : fileImportCount base = u32At base (fileOff base .imports).toNat := if_pos hpos
    refine Exec.wp_forRange (fun i names t => t = s ∧ names = (List.range i).map (importStartOf base)) ⟨rfl, rfl⟩ ?_ ?_
    · rintro i hi _ t ⟨rfl, rfl⟩
      rw [hcount] at hi
      simp only [Exec.wp_bind, wp_readU32Le, Exec.wp_pure, length_sliceAt hpay]
      refine ⟨by omega, trivial, ?_⟩
      rw [u32At_sliceAt (by omega), List.range_succ, List.map_append, List.map_singleton, importStartOf, importOff, Nat.add_assoc]
    · rintro _ t ⟨rfl, rfl⟩
      exact ⟨rfl, fun _ => rfl, rfl⟩
  · have hcount : fileImportCount base = 0 := if_neg hzero
    rw [hcount]
    rfl

/-- `& ~3` clears the two low bits. -/
theorem toNat_and_not_three (w : Word) : (w &&& ~~~(3 : Word)).toNat = w.toNat / 4 * 4 := by
  have hmask : (3 : Word) = NarrowInt.lowMask 32 2 := by decide
  rw [hmask]
  exact NarrowInt.toNat_and_not_lowMask w

/-- The 32-bit cursor of the loader is the aligned total, modulo 2³². -/
theorem ofNat_align4 (n : Nat) (w : Word) :
    BitVec.ofNat 32 n + ((w + 3) &&& ~~~(3 : Word)) = BitVec.ofNat 32 (n + align4 w.toNat) := by
  apply BitVec.eq_of_toNat_eq
  have h3 : (3 : Word).toNat = 3 := rfl
  rw [BitVec.toNat_add, toNat_and_not_three, BitVec.toNat_add, BitVec.toNat_ofNat, BitVec.toNat_ofNat, h3, align4]
  omega

/-- The region descriptors. -/
theorem wp_loadRegionTable (hk : Loadable base) (hp : PlanOf base p) :
    Exec.wp (loadRegionTable base p)
      (fun r t => t = s ∧ r = (List.range (fileRegionCount base).toNat).map (regionOf base)) (fun _ _ => False) s := by
  have hdata := hp.size .data (by simp [Kept])
  have hbss := hp.size .bss (by simp [Kept])
  have hoff := hp.off .hostRegion (by simp [Kept]) rfl
  have hpay : (fileOff base .hostRegion).toNat + (fileSize base .hostRegion).toNat ≤ base.length := payload_le hk.sections rfl
  have hend : 4 + (fileRegionCount base).toNat * regionEntrySize ≤ (fileSize base .hostRegion).toNat ∨
      fileRegionCount base = 0 := by
    by_cases hpos : fileSize base .hostRegion > 0
    · left
      rw [fileRegionCount, if_pos hpos]
      exact (hk.regions hpos).entries_end
    · exact Or.inr (if_neg hpos)
  simp only [loadRegionTable, hdata, hbss, hoff, hp.regionCount, Exec.wp_bind, Exec.wp_pure]
  refine Exec.wp_forRange (fun i acc t => t = s ∧ acc = ((List.range i).map (regionOf base), BitVec.ofNat 32
    ((fileSize base .data).toNat + (fileSize base .bss).toNat + alignedBefore base (fileOff base .hostRegion).toNat i)))
    ⟨rfl, ?_⟩ ?_ ?_
  · simp [alignedBefore, BitVec.ofNat_add]
  · rintro i hi _ t ⟨rfl, rfl⟩
    have hmul : (i + 1) * regionEntrySize ≤ (fileRegionCount base).toNat * regionEntrySize := Nat.mul_le_mul_right _ hi
    have hsz : (i + 1) * regionEntrySize = i * regionEntrySize + 28 := by rw [Nat.add_mul]; rfl
    have hend := hend.resolve_right (fun h => by simp [h] at hi)
    simp only [Exec.wp_bind, wp_readSlice, wp_readU32Le, Exec.wp_pure]
    refine ⟨by omega, by omega, by omega, trivial, ?_⟩
    rw [List.range_succ, List.map_append, List.map_singleton, ofNat_align4, alignedBefore, ← Nat.add_assoc]
    rfl
  · rintro _ t ⟨rfl, rfl⟩
    exact ⟨rfl, rfl⟩

/-! ## The whole load -/

/-- The number of regions is a 16-bit number. -/
theorem fileRegionCount_le (hk : Loadable base) : (fileRegionCount base).toNat ≤ 0xFFFF := by
  unfold fileRegionCount
  split
  · next h => exact (hk.regions h).count_le
  · exact Nat.zero_le _

/-- The number of imports is a 16-bit number. -/
theorem fileImportCount_le (hk : Loadable base) : (fileImportCount base).toNat ≤ 0xFFFF := by
  unfold fileImportCount
  split
  · next h => exact (hk.imports h).count_le
  · exact Nat.zero_le _

/-- A file that can be loaded has code. -/
theorem fileSize_code_ne_zero (hk : Loadable base) : fileSize base .code ≠ 0 := by
  obtain ⟨e, he⟩ := Option.isSome_iff_exists.mp hk.code
  have := (whole_of_find hk.sections (Or.inl rfl) he).1
  rw [fileSize, he]
  exact this

/-- `cvm_load_ex`, with what its allocations and its deallocations keep up: the image of the file, or memory ran out, or the file is malformed. -/
theorem wp_cvmLoadEx_with {κ : Type} {held settled : LoadState A → Prop} (hstart : settled s)
    (halloc : ∀ p : LoadPlan, p.sections.size .code ≠ 0 → p.regionCount.toNat ≤ 0xFFFF → p.importCount.toNat ≤ 0xFFFF →
      Exec.wp (loadAlloc al p) (fun _ t => held t) (fun _ t => settled t) s)
    (hfree : ∀ t u, held t → freeEach al badFuncsFrees t = .val () u → settled u) :
    Exec.wp (cvmLoadEx al base : Load A (Image κ))
      (fun img t => (Loadable base ∧ FuncsOk base ∧ ImageOf base img) ∧ held t)
      (fun e t => (e = .nomem ∧ AllocFailed al t ∨ ¬Loadable base ∨ ¬FuncsOk base) ∧ settled t) s := by
  rw [cvmLoadEx, Exec.wp_bind]
  refine Exec.wp_mono ?_ (fun _ t (h : t = s ∧ ¬Loadable base) => ⟨Or.inr (Or.inl h.2), h.1 ▸ hstart⟩) wp_loadPlan
  rintro p _ ⟨rfl, hk, hp⟩
  have hcode := hp.size .code (by simp [Kept])
  have hcoff := hp.off .code (by simp [Kept]) rfl
  have hcpay : (fileOff base .code).toNat + (fileSize base .code).toNat ≤ base.length := payload_le hk.sections rfl
  have hcdiv : (fileSize base .code / 4).toNat = (fileSize base .code).toNat / 4 := BitVec.toNat_udiv
  rw [Exec.wp_bind]
  have hcode' : p.sections.size .code ≠ 0 := hcode.symm ▸ fileSize_code_ne_zero hk
  have hregions : p.regionCount.toNat ≤ 0xFFFF := hp.regionCount.symm ▸ fileRegionCount_le hk
  have himports : p.importCount.toNat ≤ 0xFFFF := hp.importCount.symm ▸ fileImportCount_le hk
  have hboth := Exec.wp_and (wp_loadAlloc al hcode' hregions himports) (halloc p hcode' hregions himports)
  refine Exec.wp_mono ?_ (fun _ _ h => ⟨Or.inl h.1, h.2⟩) hboth
  rintro _ t ⟨hblock, hheld⟩
  rw [Exec.wp_bind]
  refine Exec.wp_mono ?_ (fun _ _ h => h.elim) (wp_loadCode (s := t) (by rw [hcoff, hp.codeCount]; omega))
  rintro _ u ⟨rfl, rfl⟩
  rw [Exec.wp_bind]
  refine Exec.wp_mono ?_ (fun _ _ h => h.elim) (wp_loadHeap hk hp hblock)
  rintro heap t ⟨rfl, hheap⟩
  rw [Exec.wp_bind]
  refine Exec.wp_mono ?_ (fun _ u h => ⟨Or.inr (Or.inr h.1.2), hfree _ u hheld h.2⟩) (wp_loadFuncs al (s := t) hk hp)
  rintro _ u ⟨rfl, hfuncs, rfl⟩
  rw [Exec.wp_bind]
  refine Exec.wp_mono ?_ (fun _ _ h => h.elim) (wp_loadImportNames (s := u) hk hp)
  rintro ⟨blob, names⟩ t ⟨rfl, hblob, hnames⟩
  rw [Exec.wp_bind]
  refine Exec.wp_mono ?_ (fun _ _ h => h.elim) (wp_loadRegionTable (s := t) hk hp)
  rintro _ u ⟨rfl, rfl⟩
  simp only at hblob hnames
  have hrom := hp.size .rom (by simp [Kept])
  refine ⟨⟨hk, hfuncs, ?_⟩, hheld⟩
  refine { code := by simp only [autoBindBuiltins, hcoff, hp.codeCount]
           codeCount := hp.codeCount
           memory := hheap
           heapSize := congrArg (BitVec.ofNat 32) hp.heapTotal
           dataSize := hp.size .data (by simp [Kept])
           reserveSize := hp.size .heapReserve (by simp [Kept])
           stackSize := hp.size .stackReserve (by simp [Kept])
           memSize := congrArg (BitVec.ofNat 32) hp.memTotal
           regions := rfl
           regionCount := hp.regionCount
           romOffset := fun h => ?_
           romOffset_zero := fun h => ?_
           romSize := hrom
           entry := hp.entry
           funcOffsets := rfl
           funcCount := by simp only [autoBindBuiltins, hp.size .funcs (by simp [Kept])]
           importCount := hp.importCount
           importNames := hnames
           importFns := by simp [autoBindBuiltins, hp.importCount]
           importBlob := hblob }
  · simp only [autoBindBuiltins, hrom]
    rw [if_pos h, hp.romOffset, toNat_fileRomStart hk]
  · simp only [autoBindBuiltins, hrom]
    rw [if_neg (not_not.mpr h)]

/-- `cvm_load_ex` returns the image of the file; otherwise memory ran out, or the file is malformed. -/
theorem wp_cvmLoadEx {κ : Type} : Exec.wp (cvmLoadEx al base : Load A (Image κ))
    (fun img _ => Loadable base ∧ FuncsOk base ∧ ImageOf base img)
    (fun e t => e = .nomem ∧ AllocFailed al t ∨ ¬Loadable base ∨ ¬FuncsOk base) s := by
  have hwith : Exec.wp (cvmLoadEx al base : Load A (Image κ)) (fun img _ => (Loadable base ∧ FuncsOk base ∧ ImageOf base img) ∧ True)
      (fun e t => (e = .nomem ∧ AllocFailed al t ∨ ¬Loadable base ∨ ¬FuncsOk base) ∧ True) s := wp_cvmLoadEx_with al trivial
    (fun p hcode hregions himports => Exec.wp_mono (fun _ _ _ => trivial) (fun _ _ _ => trivial) (wp_loadAlloc al hcode hregions himports))
    fun _ _ _ _ => trivial
  exact Exec.wp_mono (fun _ _ h => h.1) (fun _ _ h => h.1) hwith

end LoadAux

/-- What a successful load means. -/
theorem imageOf_of_load {κ A : Type} {al : Allocator A} {base : List Byte} {s t : LoadState A} {img : Image κ}
    (h : cvmLoadEx al base s = .val img t) : Loadable base ∧ FuncsOk base ∧ ImageOf base img := by
  have hwp : Exec.wp (cvmLoadEx al base : Load A (Image κ)) _ _ s := LoadAux.wp_cvmLoadEx al
  unfold Exec.wp at hwp
  rw [h] at hwp
  exact hwp

end CronoVM
