import CronoVM.Lemmas.LoadImage

/-!
# The layout of a loaded image

`Layout` says where everything of a file lies in the memory of its image. Every file `cvm_load_ex` accepts has it, whatever the
allocator put into the blocks it returned.
-/

namespace CronoVM

open Checked

/-- What an image has from the sections of its file: their sizes, the words of CODE and FUNCS, the entry of the header, the tables of regions
and imports. A section that is absent has size 0. -/
structure FromSections {κ : Type} (base : List Byte) (img : Image κ) : Prop where
  code_present : (fileEntry base .code).isSome = true
  code_count : img.codeCount.toNat * 4 = (fileSize base .code).toNat
  code : img.code = wordsAt base (fileOff base .code).toNat img.codeCount.toNat
  data_size : img.dataSize = fileSize base .data
  rom_size : img.romSize = fileSize base .rom
  reserve_size : img.reserveSize = fileSize base .heapReserve
  stack_size : img.stackSize = fileSize base .stackReserve
  entry : img.entry = u32At base 20
  func_count : img.funcCount = fileSize base .funcs / 4
  func_table : img.funcTable = wordsAt base (fileOff base .funcs).toNat img.funcCount.toNat
  region_count : img.regionCount = if fileSize base .hostRegion > 0 then u32At base (fileOff base .hostRegion).toNat else 0
  regions : img.regions.map (fun r => (r.name, r.size, r.direction)) = (List.range img.regionCount.toNat).map fun i =>
    let e := (fileOff base .hostRegion).toNat + 4 + i * regionEntrySize
    (sliceAt base e 16, u32At base (e + 16), u32At base (e + 20))
  import_count : img.importCount = if fileSize base .imports > 0 then u32At base (fileOff base .imports).toNat else 0
  imports : img.importNames = (List.range img.importCount.toNat).map fun i => (u32At base ((fileOff base .imports).toNat + 4 + i * 4)).toNat

/-- The layout of an image: DATA, BSS, REGIONS, ROM, HEAP_RESERVE and STACK of the file follow each other from 0 to `mem_size`, all sums
exact. -/
structure Layout {κ : Type} (base : List Byte) (img : Image κ) : Prop extends FromSections base img where
  size : img.heap.size = img.memSize.toNat
  tile : img.dataSize.toNat + (fileSize base .bss).toNat + fileRegionTotal base + img.romSize.toNat +
    img.reserveSize.toNat + img.stackSize.toNat = img.memSize.toNat
  heap_end : img.heapSize.toNat + img.stackSize.toNat = img.memSize.toNat
  rom_start : img.romSize ≠ 0 → img.romOffset.toNat =
    img.dataSize.toNat + (fileSize base .bss).toNat + fileRegionTotal base
  regions_inside : ∀ r ∈ img.regions, img.dataSize.toNat + (fileSize base .bss).toNat ≤ r.offset.toNat ∧
    r.offset.toNat + r.size.toNat ≤ img.dataSize.toNat + (fileSize base .bss).toNat + fileRegionTotal base
  regions_disjoint : img.regions.Pairwise fun r r' => r.offset.toNat + r.size.toNat ≤ r'.offset.toNat
  data : ∀ k, k < img.dataSize.toNat → img.heap.byte k = base.getD ((fileOff base .data).toNat + k) 0
  rom : ∀ k, k < img.romSize.toNat → img.heap.byte (img.romOffset.toNat + k) = base.getD ((fileOff base .rom).toNat + k) 0
  zero : ∀ i, i < img.memSize.toNat → img.dataSize.toNat ≤ i →
    ¬(img.romOffset.toNat ≤ i ∧ i < img.romOffset.toNat + img.romSize.toNat) → img.heap.byte i = 0
  entry_lt : img.entry < img.codeCount
  func_lt : ∀ off ∈ img.funcTable, off < img.codeCount
  import_blob : img.importCount ≠ 0 → img.importBlob = sliceAt base (fileOff base .imports).toNat (fileSize base .imports).toNat
  import_names : ∀ start ∈ img.importNames, start < (fileSize base .imports).toNat ∧ (0 : Byte) ∈ img.importBlob.drop start
  region_names : ∀ r ∈ img.regions, (0 : Byte) ∈ r.name ∧ ∃ at₀, at₀ + 16 ≤ (fileSize base .hostRegion).toNat ∧
    r.name = sliceAt (sliceAt base (fileOff base .hostRegion).toNat (fileSize base .hostRegion).toNat) at₀ 16

namespace LayoutAux

variable {base : List Byte}

/-- Rounding up makes no number smaller. -/
theorem le_align4 (n : Nat) : n ≤ align4 n := by
  unfold align4
  omega

/-- A region ends before the next one starts. -/
theorem region_end_le {rp i j : Nat} (h : i < j) :
    alignedBefore base rp i + (regionSize base rp i).toNat ≤ alignedBefore base rp j :=
  Nat.le_trans (Nat.add_le_add_left (le_align4 _) _) (LoadAux.alignedBefore_mono (m := i + 1) h)

/-- The offset of a region is the exact sum. -/
theorem toNat_regionOf_offset (hk : Loadable base) {i : Nat} (hi : i ≤ (fileRegionCount base).toNat) :
    (regionOf base i).offset.toNat = (fileSize base .data).toNat + (fileSize base .bss).toNat +
      alignedBefore base (fileOff base .hostRegion).toNat i := by
  have hmono : alignedBefore base (fileOff base .hostRegion).toNat i ≤ fileRegionTotal base := LoadAux.alignedBefore_mono hi
  have hle := hk.heap_le
  simp only [fileHeapTotal, fileRomStart] at hle
  simp only [regionOf, BitVec.toNat_ofNat]
  omega

/-- A slice of a slice. -/
theorem sliceAt_sliceAt {off n p k : Nat} (h : p + k ≤ n) : sliceAt (sliceAt base off n) p k = sliceAt base (off + p) k := by
  simp only [sliceAt, List.drop_take, List.drop_drop, List.take_take]
  rw [Nat.min_eq_left (by omega)]

/-- Sizes that are rounded up add to a multiple of four. -/
theorem four_dvd_alignedBefore (base : List Byte) (rp n : Nat) : 4 ∣ alignedBefore base rp n := by
  induction n with
  | zero => exact Nat.dvd_zero 4
  | succ n ih => exact Nat.dvd_add ih (Nat.dvd_mul_left 4 _)

/-- What the loader takes over from the sections. -/
theorem fromSections_of_imageOf {κ : Type} {img : Image κ} (hk : Loadable base) (himg : ImageOf base img) : FromSections base img := by
  have hquarter : ∀ w : Word, (w / 4).toNat = w.toNat / 4 := fun w => BitVec.toNat_udiv
  constructor
  case code_present => exact hk.code
  case code_count =>
    obtain ⟨e, he⟩ := Option.isSome_iff_exists.mp hk.code
    have hwhole := (LoadAux.whole_of_find hk.sections (Or.inl rfl) he).2
    have hsize : fileSize base .code = e.size := by rw [fileSize, he, Option.map_some, Option.getD_some]
    have hmod : (fileSize base .code).toNat % 4 = 0 := by
      rw [hsize]
      exact congrArg BitVec.toNat hwhole
    rw [himg.codeCount, hquarter]
    omega
  case code => rw [himg.code, himg.codeCount]
  case data_size => exact himg.dataSize
  case rom_size => exact himg.romSize
  case reserve_size => exact himg.reserveSize
  case stack_size => exact himg.stackSize
  case entry => exact himg.entry
  case func_count => exact himg.funcCount
  case func_table =>
    rw [Image.funcTable, himg.funcOffsets, himg.funcCount]
    by_cases hf : fileSize base .funcs > 0
    · rw [if_pos hf, Option.getD_some]
    · have hzero : (fileSize base .funcs / 4).toNat = 0 := by
        have hsize : (fileSize base .funcs).toNat = 0 := Nat.eq_zero_of_not_pos fun hpos => hf (BitVec.lt_def.mpr hpos)
        rw [hquarter, hsize]
      rw [if_neg hf, hzero]
      rfl
  case region_count => exact himg.regionCount
  case regions =>
    rw [himg.regions, himg.regionCount, List.map_map]
    rfl
  case import_count => exact himg.importCount
  case imports =>
    rw [himg.importNames, himg.importCount]
    rfl

end LayoutAux

open LayoutAux

/-- Every file `cvm_load_ex` accepts, with any allocator, has its sections in the image, where the layout puts them: the slices tile the memory, the
regions are disjoint inside theirs, memory is DATA and ROM with zeros around, the entry and the function table point into the code,
and every name ends inside its section. -/
theorem load_layout {κ A : Type} (al : Allocator A) (base : List Byte) (world : A) (img : Image κ) (t : LoadState A)
    (h : cvmLoadEx al base (LoadState.start world) = .val img t) : Layout base img := by
  obtain ⟨hk, hfuncs, himg⟩ := imageOf_of_load h
  have hmem : img.memSize.toNat = fileMemTotal base := by
    rw [himg.memSize, BitVec.toNat_ofNat, Nat.mod_eq_of_lt (Nat.lt_succ_of_le hk.mem_le)]
  have hheap : img.heapSize.toNat = fileHeapTotal base := by
    rw [himg.heapSize, BitVec.toNat_ofNat, Nat.mod_eq_of_lt (Nat.lt_succ_of_le hk.heap_le)]
  have hpos : ∀ {i}, i < (fileRegionCount base).toNat → fileSize base .hostRegion > 0 := by
    intro i hi
    by_contra hno
    rw [fileRegionCount, if_neg hno] at hi
    exact absurd hi (Nat.not_lt_zero i)
  constructor
  case toFromSections => exact fromSections_of_imageOf hk himg
  case size => rw [himg.memory.size, hmem]
  case tile =>
    rw [himg.dataSize, himg.romSize, himg.reserveSize, himg.stackSize, hmem]
    rfl
  case heap_end =>
    rw [hheap, hmem, himg.stackSize]
    rfl
  case rom_start =>
    intro hrom
    rw [himg.romOffset (himg.romSize ▸ hrom), himg.dataSize]
    rfl
  case regions_inside =>
    intro r hr
    rw [himg.regions] at hr
    obtain ⟨i, hi, rfl⟩ := List.mem_map.mp hr
    have hi := List.mem_range.mp hi
    have hend : alignedBefore base (fileOff base .hostRegion).toNat i + (regionOf base i).size.toNat ≤ fileRegionTotal base :=
      region_end_le hi
    rw [toNat_regionOf_offset hk (Nat.le_of_lt hi), himg.dataSize]
    omega
  case regions_disjoint =>
    rw [himg.regions, List.pairwise_map]
    refine List.Pairwise.imp_of_mem ?_ List.pairwise_lt_range
    intro i j hi hj hij
    have hi := List.mem_range.mp hi
    have hj := List.mem_range.mp hj
    have hend : alignedBefore base (fileOff base .hostRegion).toNat i + (regionOf base i).size.toNat ≤
        alignedBefore base (fileOff base .hostRegion).toNat j := region_end_le hij
    rw [toNat_regionOf_offset hk (Nat.le_of_lt hi), toNat_regionOf_offset hk (Nat.le_of_lt hj)]
    omega
  case data =>
    intro k hkd
    rw [himg.dataSize] at hkd
    exact himg.memory.data k hkd
  case rom =>
    intro k hkr
    rw [himg.romSize] at hkr
    have hne : fileSize base .rom ≠ 0 := fun h0 => by simp [h0] at hkr
    rw [himg.romOffset hne]
    exact himg.memory.rom k hkr
  case zero =>
    intro i hi hd hr
    rw [hmem] at hi
    rw [himg.dataSize] at hd
    refine himg.memory.zero i hd hi fun hin => hr ?_
    have hne : fileSize base .rom ≠ 0 := fun h0 => by simp [h0] at hin; omega
    rw [himg.romOffset hne, himg.romSize]
    exact hin
  case entry_lt =>
    rw [himg.entry, himg.codeCount]
    exact hk.entry
  case func_lt =>
    intro off hoff
    rw [Image.funcTable, himg.funcOffsets] at hoff
    rw [himg.codeCount]
    by_cases hf : fileSize base .funcs > 0
    · rw [if_pos hf] at hoff
      obtain ⟨i, hi, rfl⟩ := List.mem_map.mp hoff
      exact hfuncs i (List.mem_range.mp hi)
    · rw [if_neg hf] at hoff
      exact absurd hoff List.not_mem_nil
  case import_blob =>
    intro hne
    refine himg.importBlob ?_
    by_contra hno
    rw [himg.importCount, fileImportCount, if_neg hno] at hne
    exact hne rfl
  case import_names =>
    intro start hstart
    rw [himg.importNames] at hstart
    obtain ⟨i, hi, rfl⟩ := List.mem_map.mp hstart
    have hi := List.mem_range.mp hi
    have hpos : fileSize base .imports > 0 := by
      by_contra hno
      rw [fileImportCount, if_neg hno] at hi
      exact absurd hi (Nat.not_lt_zero i)
    rw [fileImportCount, if_pos hpos] at hi
    have hentry := (hk.imports hpos).entries i hi
    refine ⟨hentry.off_lt, ?_⟩
    have hnul := hentry.nul
    rw [BitVec.toNat_sub_of_le (BitVec.le_of_lt hentry.off_lt)] at hnul
    rw [himg.importBlob hpos, importBlobOf, sliceAt, List.drop_take, List.drop_drop]
    exact hnul
  case region_names =>
    intro r hr
    rw [himg.regions] at hr
    obtain ⟨i, hi, rfl⟩ := List.mem_map.mp hr
    have hi := List.mem_range.mp hi
    have hp := hpos hi
    rw [fileRegionCount, if_pos hp] at hi
    have htable := hk.regions hp
    have hmul : (i + 1) * regionEntrySize ≤ (u32At base (fileOff base .hostRegion).toNat).toNat * regionEntrySize :=
      Nat.mul_le_mul_right _ hi
    have hsz : (i + 1) * regionEntrySize = i * regionEntrySize + 28 := by rw [Nat.add_mul]; rfl
    have hend := htable.entries_end
    refine ⟨(htable.regions.entries i hi).nul, 4 + i * regionEntrySize, by omega, ?_⟩
    rw [sliceAt_sliceAt (by omega), ← Nat.add_assoc]
    rfl

/-! ## A file that loads -/

/-- The bytes of a list of words. -/
def wordFile (words : List Word) : List Byte := words.flatMap fun w => [leByte w 0, leByte w 1, leByte w 2, leByte w 3]

/-- A file with a section of each kind the loader keeps, but HEAP_RESERVE: header, table, and the payloads of CODE, DATA, FUNCS,
HOST_REGION, ROM and IMPORTS. -/
def sampleFile : List Byte := wordFile
  [0x314D5643, 0x00010000, 0, 8, 24, 0,
   1, 152, 8, 0, 2, 160, 4, 0, 3, 0, 4, 0, 7, 0, 8, 0, 8, 164, 8, 0, 9, 172, 32, 0, 10, 204, 4, 0, 4, 208, 12, 0,
   0, 0, 0x11223344, 0, 0, 1, 0x00006266, 0, 0, 0, 4, 2, 0, 0x55667788, 1, 8, 0x61]

/-- An allocator that never fails and never clears what it returns. -/
def bumpAllocator : Allocator Nat :=
  { hasAlloc := false, hasFree := false, alloc := fun _ n a => (some ⟨a, fun _ => 0xFF⟩, a + n), free := fun _ _ a => a }

/-- The file is accepted. -/
theorem sampleFile_loads :
    ∃ (img : Image Unit) (t : LoadState Nat), cvmLoadEx bumpAllocator sampleFile (LoadState.start 0) = .val img t :=
  Outcome.exists_of_isVal (by decide +kernel)

theorem load_layout_sampleFile : ∃ (img : Image Unit) (t : LoadState Nat),
    cvmLoadEx bumpAllocator sampleFile (LoadState.start 0) = .val img t ∧ Layout sampleFile img := by
  obtain ⟨img, t, h⟩ := sampleFile_loads
  exact ⟨img, t, h, load_layout bumpAllocator sampleFile 0 img t h⟩

/-! ## The alignment of the regions -/

/-- The regions of a loaded image are aligned to words exactly if DATA and BSS before them end at a multiple of 4: only the sizes of the
regions are rounded. -/
theorem regions_aligned_iff {κ A : Type} (al : Allocator A) (base : List Byte) (world : A) (img : Image κ) (t : LoadState A)
    (h : cvmLoadEx al base (LoadState.start world) = .val img t) : (∀ r ∈ img.regions, 4 ∣ r.offset.toNat) ↔
      fileRegionCount base = 0 ∨ 4 ∣ (fileSize base .data).toNat + (fileSize base .bss).toNat := by
  obtain ⟨hload, -, himg⟩ := imageOf_of_load h
  have hoffset : ∀ i, i ≤ (fileRegionCount base).toNat → (4 ∣ (regionOf base i).offset.toNat ↔
      4 ∣ (fileSize base .data).toNat + (fileSize base .bss).toNat) := by
    intro i hi
    rw [toNat_regionOf_offset hload hi]
    exact (Nat.dvd_add_iff_left (four_dvd_alignedBefore base _ i)).symm
  rw [himg.regions]
  constructor
  · intro haligned
    by_cases hcount : fileRegionCount base = 0
    · exact Or.inl hcount
    · have hpos : 0 < (fileRegionCount base).toNat := Nat.pos_of_ne_zero fun hz => hcount (BitVec.eq_of_toNat_eq hz)
      exact Or.inr ((hoffset 0 (Nat.zero_le _)).mp (haligned _ (List.mem_map_of_mem (List.mem_range.mpr hpos))))
  · intro hends r hr
    obtain ⟨i, hi, rfl⟩ := List.mem_map.mp hr
    have hi := List.mem_range.mp hi
    rcases hends with hcount | hdvd
    · rw [hcount] at hi
      exact absurd hi (Nat.not_lt_zero i)
    · exact (hoffset i (Nat.le_of_lt hi)).mpr hdvd

theorem regions_aligned_iff_sampleFile : ∃ (img : Image Unit) (t : LoadState Nat),
    cvmLoadEx bumpAllocator sampleFile (LoadState.start 0) = .val img t ∧ ∀ r ∈ img.regions, 4 ∣ r.offset.toNat := by
  obtain ⟨img, t, h⟩ := sampleFile_loads
  exact ⟨img, t, h, (regions_aligned_iff bumpAllocator sampleFile 0 img t h).mpr (Or.inr (by decide +kernel))⟩

/-- A file with CODE, one byte of BSS and a region of one byte. -/
def oddBssFile : List Byte := wordFile
  [0x314D5643, 0x00010000, 0, 3, 24, 0,
   1, 72, 4, 0, 3, 0, 1, 0, 9, 76, 32, 0,
   0, 1, 0x00006266, 0, 0, 0, 1, 3, 0]

theorem oddBssFile_misaligned : ∃ (img : Image Unit) (t : LoadState Nat),
    cvmLoadEx bumpAllocator oddBssFile (LoadState.start 0) = .val img t ∧ ¬∀ r ∈ img.regions, 4 ∣ r.offset.toNat := by
  obtain ⟨img, t, h, hodd⟩ := Outcome.exists_of_holds (p := fun (img : Image Unit) (_ : LoadState Nat) =>
    !img.regions.all fun r => r.offset.toNat % 4 == 0) (o := cvmLoadEx bumpAllocator oddBssFile (LoadState.start 0)) (by decide +kernel)
  refine ⟨img, t, h, fun haligned => ?_⟩
  have hall : (img.regions.all fun r => r.offset.toNat % 4 == 0) = true :=
    List.all_eq_true.mpr fun r hr => beq_iff_eq.mpr (Nat.mod_eq_zero_of_dvd (haligned r hr))
  rw [hall] at hodd
  nomatch hodd

end CronoVM
