import CronoVM.Lemmas.Accepted
import CronoVM.Lemmas.SectionTable
import CronoVM.Theorems.Load

/-!
# Writer and loader agree

`write_bin` and `cvm_load_ex` are separate programs. Whatever valid arguments the writer is given, with any combination of sections,
the loader gets them back from the file, unless the allocator answers with NULL; `cvm_seal_check` and `cvm_peek_section` find the seal and the
metadata.
-/

namespace CronoVM

open Checked

/-- The image holds what the file was written from. -/
structure Carries {κ : Type} (src : BinSource) (img : Image κ) : Prop where
  code : img.code = src.code
  data_size : img.dataSize.toNat = src.data.length
  data : ∀ k, (hk : k < src.data.length) → img.heap.byte k = src.data[k]
  import_count : img.importNames.length = src.imports.length
  import_name : ∀ k, (hk : k < src.imports.length) → img.importName k = src.imports[k]
  func_offset : src.emitFuncs = true → ∀ k, (hk : k < src.funcs.length) → img.funcTable[(k + 1) * 2]? = some src.funcs[k]
  regions : img.regions.map (fun r => (r.name, r.size, r.direction)) = src.regions.map fun r => (r.name, r.size, r.direction)
  rom_size : img.romSize.toNat = src.rom.length
  rom : ∀ k, (hk : k < src.rom.length) → img.heap.byte (img.romOffset.toNat + k) = src.rom[k]
  reserve_size : img.reserveSize = src.heapReserve
  stack_size : img.stackSize = src.stackReserve
  entry : img.entry = src.entry

namespace RoundtripAux

open WrittenAux

variable {src : BinSource} {κ : Type}

/-! ## The image -/

/-- A byte of a section, read from the file. -/
theorem getD_section (h : src.Valid) {t : SectionType} (hp : t.hasPayload = true) (hd : t ≠ .debug) {k : Nat}
    (hk : k < (src.secBytes t).length) : (writeBin src).getD ((fileOff (writeBin src) t).toNat + k) 0 = (src.secBytes t)[k] := by
  have hpos : 0 < src.secSize t := by
    rw [← length_secBytes hp]
    exact Nat.zero_lt_of_lt hk
  rw [toNat_fileOff h.code h.file_lt hp hd hpos, (hasAt_section h.code hp hd).getD hk, List.getD_eq_getElem?_getD,
    List.getElem?_eq_getElem hk, Option.getD_some]

/-- The names of the imports, in their order. -/
theorem importName_of_imageOf (h : src.Valid) {img : Image κ} (himg : ImageOf (writeBin src) img) {k : Nat}
    (hk : k < src.imports.length) : img.importName k = src.imports[k] := by
  have hne : src.imports ≠ [] := List.ne_nil_of_length_pos (Nat.zero_lt_of_lt hk)
  have hpos : 0 < src.secSize .imports := by
    rw [BinSource.secSize, importsBuf_of_ne hne]
    exact Nat.succ_pos _
  have hp := (fileSize_pos h.code h.file_lt _).mpr hpos
  have hoff : (fileOff (writeBin src) .imports).toNat = src.importsOff :=
    toNat_fileOff h.code h.file_lt (t := .imports) rfl (by decide) hpos
  have hcount : (fileImportCount (writeBin src)).toNat = src.imports.length := by
    rw [fileImportCount, if_pos hp, hoff, importCount_at h hpos]
  have hblob : img.importBlob = src.importsBuf := by
    rw [himg.importBlob hp, importBlobOf, hoff, toNat_fileSize h.code h.file_lt]
    exact sliceAt_of_hasAt (hasAt_imports h)
  obtain ⟨off, hentry, _, rest, hdrop⟩ := importName_at h hpos hk
  have hstart : img.importNames.getD k 0 = off := by
    rw [himg.importNames, hcount, List.getD_eq_getElem?_getD, List.getElem?_map, List.getElem?_range hk]
    rw [← hentry, ← hoff]
    rfl
  have hnul := h.imports_nul _ (List.getElem_mem hk)
  rw [Image.importName, hblob, hstart, hdrop, cstr, List.takeWhile_append_of_pos, List.takeWhile_cons_of_neg (by simp),
    List.append_nil]
  intro b hb
  simpa using fun hz : b = 0 => hnul (hz ▸ hb)

/-- The regions, with names, sizes and directions. -/
theorem regions_of_imageOf (h : src.Valid) {img : Image κ} (himg : ImageOf (writeBin src) img) :
    img.regions.map (fun r => (r.name, r.size, r.direction)) = src.regions.map fun r => (r.name, r.size, r.direction) := by
  rw [himg.regions, fileRegionCount_writeBin h]
  apply List.ext_getElem
  · simp
  · intro i hi hi'
    have hlt : i < src.regions.length := by simpa using hi
    have hpos : 0 < src.secSize .hostRegion := by
      rw [BinSource.secSize, length_regionsBuf h (List.ne_nil_of_length_pos (Nat.zero_lt_of_lt hlt))]
      omega
    have hoff : (fileOff (writeBin src) .hostRegion).toNat = src.regionsOff :=
      toNat_fileOff h.code h.file_lt (t := .hostRegion) rfl (by decide) hpos
    have hat := region_at h (hasAt_regions h) hlt
    simp only [List.getElem_map, List.getElem_range, regionOf, hoff, hat.name, hat.size, hat.direction]

/-- The image of a written file holds what it was written from. -/
theorem carries_of_imageOf (h : src.Valid) {img : Image κ} (himg : ImageOf (writeBin src) img) : Carries src img := by
  have hsize := toNat_fileSize h.code h.file_lt
  have hcode : 0 < src.secSize .code := Nat.mul_pos (List.length_pos_iff.mpr h.code) (by decide)
  constructor
  case code =>
    rw [himg.code, codeCount_writeBin h, toNat_fileOff h.code h.file_lt rfl (by decide) hcode]
    exact wordsAt_of_hasAt (hasAt_section (t := .code) h.code rfl (by decide))
  case data_size =>
    rw [himg.dataSize, hsize]
    rfl
  case data =>
    intro k hk
    rw [himg.memory.data k (by rw [hsize]; exact hk)]
    exact getD_section h (t := .data) rfl (by decide) hk
  case import_count =>
    rw [himg.importNames, List.length_map, List.length_range, fileImportCount]
    split
    case isTrue hp =>
      have hpos := (fileSize_pos h.code h.file_lt _).mp hp
      rw [toNat_fileOff h.code h.file_lt rfl (by decide) hpos]
      exact importCount_at h hpos
    case isFalse hp =>
      have hzero : ¬0 < src.secSize .imports := fun hpos => hp ((fileSize_pos h.code h.file_lt _).mpr hpos)
      by_cases hne : src.imports = []
      · rw [hne]
        rfl
      · rw [BinSource.secSize, importsBuf_of_ne hne] at hzero
        exact absurd (Nat.succ_pos _) hzero
  case import_name => exact fun k hk => importName_of_imageOf h himg hk
  case func_offset =>
    intro he k hk
    have hslot := funcsWords_slot he hk
    have hpos : 0 < src.secSize .funcs := by
      obtain ⟨hlt, _⟩ := List.getElem?_eq_some_iff.mp (hslot.trans (List.getElem?_eq_getElem hk))
      rw [BinSource.secSize, length_funcsBuf]
      omega
    rw [Image.funcTable, himg.funcOffsets, if_pos ((fileSize_pos h.code h.file_lt _).mpr hpos), funcs_at h hpos, Option.getD_some]
    exact hslot.trans (List.getElem?_eq_getElem hk)
  case regions => exact regions_of_imageOf h himg
  case rom_size =>
    rw [himg.romSize, hsize]
    rfl
  case rom =>
    intro k hk
    have hne : fileSize (writeBin src) .rom ≠ 0 := fun hz => by
      have := hsize .rom
      rw [hz, BinSource.secSize] at this
      exact absurd hk (by rw [← this]; exact Nat.not_lt_zero k)
    rw [himg.romOffset hne, himg.memory.rom k (by rw [hsize]; exact hk)]
    exact getD_section h (t := .rom) rfl (by decide) hk
  case reserve_size => rw [himg.reserveSize, fileSize_writeBin h.code, BinSource.secSize, BitVec.ofNat_toNat, BitVec.setWidth_eq]
  case stack_size => rw [himg.stackSize, fileSize_writeBin h.code, BinSource.secSize, BitVec.ofNat_toNat, BitVec.setWidth_eq]
  case entry => rw [himg.entry, entry_writeBin h.code]

/-! ## Peeking -/

/-- `cvm_peek_section` gives the place and size of a section that is present, and 0 for one that is not. -/
theorem cvmPeekSection_writeBin (h : src.Valid) {t : SectionType} (hp : t.hasPayload = true) (hd : t ≠ .debug) :
    cvmPeekSection (writeBin src) t =
      if 0 < src.secSize t then .found (src.secOff t) (BitVec.ofNat 32 (src.secSize t)) else .absent := by
  have hk := loadable_writeBin h
  have hend := section_end_le h.code hp hd
  have hfile := h.file_lt
  rw [cvmPeekSection_eq hk.length hk.magic hk.table, fileEntry_writeBin h.code]
  by_cases hpos : 0 < src.secSize t
  · have hoff : (BitVec.ofNat 32 (src.secOff t)).toNat = src.secOff t := Nat.mod_eq_of_lt (by omega)
    have hsize : (BitVec.ofNat 32 (src.secSize t)).toNat = src.secSize t := Nat.mod_eq_of_lt (by omega)
    rw [if_pos hpos, if_pos hpos, peekEntry, BinSource.entryOf, hoff, hsize, if_neg (Nat.not_lt.mpr hend)]
  · rw [if_neg hpos, if_neg hpos]
    rfl

/-- The seal of a written file is sound, and there is none when it was not asked for. -/
theorem cvmSealCheck_writeBin (h : src.Valid) : cvmSealCheck (writeBin src) = if src.sealed then 1 else 0 := by
  rw [cvmSealCheck, cvmPeekSection_writeBin h (t := .integritySeal) rfl (by decide)]
  by_cases hs : src.sealed = true
  · have hat := hasAt_section (t := .integritySeal) h.code rfl (by decide)
    rw [BinSource.secBytes, BinSource.sealPayload, if_pos hs, BinSource.secOff] at hat
    have hmagic := u32At_of_hasAt hat.left
    have hcrc : u32At (writeBin src) (src.sealOff + 8) = cvmCrc32 src.front := u32At_of_hasAt hat.right.right
    have htake : (writeBin src).take src.sealOff = src.front := by
      rw [writeBin_eq h.code, ← length_front h.code, List.take_left]
    have hsize : src.secSize .integritySeal = 12 := if_pos hs
    rw [if_pos (by rw [hsize]; decide), if_pos hs]
    simp only [BinSource.secOff, hsize, hmagic, hcrc, htake]
    decide
  · have hsize : src.secSize .integritySeal = 0 := if_neg hs
    rw [if_neg (by rw [hsize]; decide), if_neg hs]

/-- A written file is loaded, or the allocator has answered with NULL. -/
theorem load_or_failed {A : Type} (al : Allocator A) (world : A) (h : src.Valid) :
    (∃ (img : Image κ) (t : LoadState A), cvmLoadEx al (writeBin src) (LoadState.start world) = .val img t ∧ Carries src img) ∨
      ∃ t : LoadState A, cvmLoadEx al (writeBin src) (LoadState.start world) = (.stop .nomem t : Outcome _ _ (Image κ)) ∧
        AllocFailed al t := by
  have hwp : Exec.wp (cvmLoadEx al (writeBin src) : Load A (Image κ)) _ _ (LoadState.start world) := LoadAux.wp_cvmLoadEx al
  unfold Exec.wp at hwp
  cases hload : (cvmLoadEx al (writeBin src) : Load A (Image κ)) (LoadState.start world) with
  | val img t =>
    rw [hload] at hwp
    exact Or.inl ⟨img, t, rfl, carries_of_imageOf h hwp.2.2⟩
  | stop e t =>
    rw [hload] at hwp
    rcases hwp with ⟨rfl, hfail⟩ | hno | hno
    · exact Or.inr ⟨t, rfl, hfail⟩
    · exact absurd (loadable_writeBin h) hno
    · exact absurd (funcsOk_writeBin h) hno
  | oob =>
    rw [hload] at hwp
    exact hwp.elim

end RoundtripAux

open RoundtripAux WrittenAux

/-- What `write_bin` makes of valid arguments is accepted by `cvm_load_ex`: it returns an image that holds the arguments, always if the
allocator never answers with NULL, and otherwise unless it does. The seal is checked with 1 when there is one and with 0 otherwise, and
`cvm_peek_section` returns exactly the metadata. -/
theorem writeBin_load {κ A : Type} (al : Allocator A) (world : A) (src : BinSource) (h : src.Valid) :
    ((∀ via n a, (al.alloc via n a).1 ≠ none) →
      ∃ (img : Image κ) (t : LoadState A), cvmLoadEx al (writeBin src) (LoadState.start world) = .val img t ∧ Carries src img) ∧
    ((∃ (img : Image κ) (t : LoadState A), cvmLoadEx al (writeBin src) (LoadState.start world) = .val img t ∧ Carries src img) ∨
      (∃ t : LoadState A, cvmLoadEx al (writeBin src) (LoadState.start world) = (.stop .nomem t : Outcome _ _ (Image κ)) ∧
        AllocFailed al t)) ∧
    cvmSealCheck (writeBin src) = (if src.sealed then 1 else 0) ∧
    (src.metadata ≠ [] → ∃ off size, cvmPeekSection (writeBin src) .metadata = .found off size ∧
      sliceAt (writeBin src) off size.toNat = src.metadata) := by
  have hload := load_or_failed (κ := κ) al world h
  refine ⟨fun hnever => hload.resolve_right ?_, hload, cvmSealCheck_writeBin h, fun hne => ?_⟩
  · rintro ⟨t, -, via, n, a, -, hnull⟩
    exact hnever via n a hnull
  · have hpos : 0 < src.secSize .metadata := List.length_pos_iff.mpr hne
    have hlt := secSize_lt h.code h.file_lt .metadata
    refine ⟨_, _, (cvmPeekSection_writeBin h (t := .metadata) rfl (by decide)).trans (if_pos hpos), ?_⟩
    rw [BitVec.toNat_ofNat, Nat.mod_eq_of_lt hlt]
    exact sliceAt_of_hasAt (hasAt_section (t := .metadata) h.code rfl (by decide))

/-! ## Arguments with a section of each kind -/

def sampleSource : BinSource :=
  { code := [0, 0], data := [1, 2, 3], heapReserve := 16, stackReserve := 8, imports := [[0x61], []], funcs := [0, 1], emitFuncs := true,
    regions := [{ name := 0x62 :: List.replicate 15 0, size := 5, direction := 2 }], rom := [7], metadata := [9, 8], sealed := true,
    entry := 1 }

/-- The sample meets the assumptions on a source. -/
theorem sampleSource_valid : sampleSource.Valid where
  code := by decide
  imports_le := by simp [sampleSource]
  imports_nul := by decide
  regions_le := by simp [sampleSource]
  regions_ok := by
    intro r hr
    rw [List.mem_singleton.mp hr]
    exact ⟨by decide, by decide, by decide, by decide⟩
  regions_distinct := List.pairwise_singleton _ _
  entry_lt := by decide
  funcs_lt := by simp [sampleSource]
  stack := by decide
  file_lt := by decide +kernel
  mem_lt := by decide

/-- The file of the sample is loaded, and its image holds the sample. -/
theorem writeBin_load_sampleSource :
    (∃ (img : Image Unit) (t : LoadState Nat), cvmLoadEx bumpAllocator (writeBin sampleSource) (LoadState.start 0) = .val img t ∧
      Carries sampleSource img) ∧
    cvmSealCheck (writeBin sampleSource) = 1 ∧
    ∃ off size, cvmPeekSection (writeBin sampleSource) .metadata = .found off size ∧
      sliceAt (writeBin sampleSource) off size.toNat = [9, 8] := by
  obtain ⟨hnever, -, hseal, hpeek⟩ := writeBin_load (κ := Unit) bumpAllocator 0 sampleSource sampleSource_valid
  exact ⟨hnever fun _ _ _ => Option.some_ne_none _, hseal, hpeek (by decide)⟩

end CronoVM
