import CronoVM.Lemmas.Written

/-!
# Written files are loadable

The payloads of a written file as the loader reads them: the names behind the import offsets, the slots of the function table, the
region entries. With them, every check of `cvm_load_ex` passes on a file `write_bin` makes of valid arguments.
-/

namespace CronoVM

/-! ## Valid arguments -/

/-- A region of the command line: a `char name[16]` that holds a non-empty C string, and a direction the loader knows. -/
structure CliRegion.Valid (r : CliRegion) : Prop where
  name_length : r.name.length = 16
  name_nul : (0 : Byte) ∈ r.name
  name_first : r.name.getD 0 0 ≠ 0
  direction : regionR ≤ r.direction ∧ r.direction ≤ regionRw

/-- The size of the memory an image with these sections has. -/
def BinSource.memSize (src : BinSource) : Nat :=
  src.data.length + (src.regions.map fun r => align4 r.size.toNat).sum + src.rom.length + src.heapReserve.toNat
    + src.stackReserve.toNat

/-- What `main` gives `write_bin`: names are C strings, the regions differ in their names, places are in the code, and file and memory
have 32-bit sizes. -/
structure BinSource.Valid (src : BinSource) : Prop where
  code : src.code ≠ []
  imports_le : src.imports.length ≤ 65535
  imports_nul : ∀ name ∈ src.imports, (0 : Byte) ∉ name
  regions_le : src.regions.length ≤ 65535
  regions_ok : ∀ r ∈ src.regions, r.Valid
  regions_distinct : src.regions.Pairwise fun r r' => strncmpEq r.name r'.name 16 = false
  entry_lt : src.entry.toNat < src.code.length
  funcs_lt : ∀ off ∈ src.funcs, off.toNat < src.code.length
  stack : src.stackReserve = 0 ∨ 4 ≤ src.stackReserve.toNat
  file_lt : (writeBin src).length < 2 ^ 32
  mem_lt : src.memSize < 2 ^ 32

/-- A source without imports and regions has only its sizes and its places to check. -/
theorem BinSource.Valid.of_bare {src : BinSource} (himports : src.imports = []) (hregions : src.regions = []) (hcode : src.code ≠ [])
    (hentry : src.entry.toNat < src.code.length) (hfuncs : ∀ off ∈ src.funcs, off.toNat < src.code.length)
    (hstack : src.stackReserve = 0 ∨ 4 ≤ src.stackReserve.toNat) (hfile : (writeBin src).length < 2 ^ 32)
    (hmem : src.memSize < 2 ^ 32) : src.Valid where
  code := hcode
  imports_le := by simp [himports]
  imports_nul := by simp [himports]
  regions_le := by simp [hregions]
  regions_ok := by simp [hregions]
  regions_distinct := by simp [hregions]
  entry_lt := hentry
  funcs_lt := hfuncs
  stack := hstack
  file_lt := hfile
  mem_lt := hmem

namespace WrittenAux

variable {src : BinSource}

/-! ## Imports -/

/-- Name `k` starts where its offset says, and ends with its NUL. -/
theorem name_at (names : List (List Byte)) (cursor k : Nat) (hk : k < names.length) : ∃ q,
    (BinSource.nameOffsets names cursor)[k]? = some (cursor + q) ∧
      HasAt (names.flatMap fun name => name ++ [0]) q (names[k] ++ [0]) := by
  induction names generalizing cursor k with
  | nil => exact absurd hk (Nat.not_lt_zero k)
  | cons name names ih =>
    cases k with
    | zero => exact ⟨0, rfl, (HasAt.whole _).left⟩
    | succ k =>
      obtain ⟨q, hq, hat⟩ := ih (cursor + name.length + 1) k (Nat.lt_of_succ_lt_succ hk)
      refine ⟨name.length + 1 + q, ?_, ?_⟩
      · rw [BinSource.nameOffsets, List.getElem?_cons_succ, hq]
        congr 1
        omega
      · have h := ((HasAt.whole ((name :: names).flatMap fun name => name ++ [0])).right).trans hat
        simpa [Nat.add_assoc] using h

/-- One offset for each name. -/
theorem length_nameOffsets (names : List (List Byte)) (cursor : Nat) : (BinSource.nameOffsets names cursor).length = names.length := by
  induction names generalizing cursor with
  | nil => rfl
  | cons name names ih => rw [BinSource.nameOffsets, List.length_cons, ih, List.length_cons]

/-- The table of imports: a count, the offsets and the names. -/
theorem importsBuf_of_ne (hne : src.imports ≠ []) : src.importsBuf =
    putU32Le (BitVec.ofNat 32 src.imports.length)
      ++ (BinSource.nameOffsets src.imports (4 + src.imports.length * 4)).flatMap (fun off => putU32Le (BitVec.ofNat 32 off))
      ++ src.imports.flatMap (fun name => name ++ [0]) :=
  if_pos (List.length_pos_iff.mpr hne)

theorem importsBuf_nil (h : src.imports = []) : src.importsBuf = [] := if_neg (by simp [h])

/-- Entry `k` of the import payload is the place of name `k`. -/
theorem import_at (hne : src.imports ≠ []) {k : Nat} (hk : k < src.imports.length) : ∃ off,
    HasAt src.importsBuf (4 + k * 4) (putU32Le (BitVec.ofNat 32 off)) ∧ HasAt src.importsBuf off (src.imports[k] ++ [0]) := by
  obtain ⟨q, hq, hat⟩ := name_at src.imports (4 + src.imports.length * 4) k hk
  have hlen := length_nameOffsets src.imports (4 + src.imports.length * 4)
  obtain ⟨hk', hoff⟩ := List.getElem?_eq_some_iff.mp hq
  rw [importsBuf_of_ne hne]
  have hall := HasAt.whole (putU32Le (BitVec.ofNat 32 src.imports.length)
    ++ (BinSource.nameOffsets src.imports (4 + src.imports.length * 4)).flatMap (fun off => putU32Le (BitVec.ofNat 32 off))
    ++ src.imports.flatMap (fun name => name ++ [0]))
  refine ⟨4 + src.imports.length * 4 + q, ?_, ?_⟩
  · have h := hall.left.right.trans (HasAt.flatMap (fun off _ => length_putU32Le (BitVec.ofNat 32 off)) hk')
    rw [hoff] at h
    simpa using h
  · have h := hall.right.trans hat
    rw [List.length_append, length_flatMap_const (fun off _ => length_putU32Le (BitVec.ofNat 32 off)), hlen] at h
    simpa using h

/-! ## Functions -/

/-- The writes into the function table, function `k` first. -/
def fillSlots (funcs : List Word) (k : Nat) (buf : List Word) : List Word :=
  (funcs.zipIdx k).foldl (fun buf e => buf.set (cvmFnSlot e.2) e.1) buf

/-- The first function takes its slot. -/
theorem fillSlots_cons (f : Word) (funcs : List Word) (k : Nat) (buf : List Word) :
    fillSlots (f :: funcs) k buf = fillSlots funcs (k + 1) (buf.set (cvmFnSlot k) f) := by
  rw [fillSlots, List.zipIdx_cons, List.foldl_cons]
  rfl

/-- Filling leaves the length. -/
theorem length_fillSlots (funcs : List Word) (k : Nat) (buf : List Word) : (fillSlots funcs k buf).length = buf.length := by
  induction funcs generalizing k buf with
  | nil => rfl
  | cons f funcs ih => rw [fillSlots_cons, ih, List.length_set]

/-- A word of the table is a function or was there before. -/
theorem mem_fillSlots {funcs : List Word} {k : Nat} {buf : List Word} {w : Word} (h : w ∈ fillSlots funcs k buf) :
    w ∈ buf ∨ w ∈ funcs := by
  induction funcs generalizing k buf with
  | nil => exact Or.inl h
  | cons f funcs ih =>
    rw [fillSlots_cons] at h
    rcases ih h with hset | hmem
    · rcases List.mem_or_eq_of_mem_set hset with hbuf | rfl
      · exact Or.inl hbuf
      · exact Or.inr List.mem_cons_self
    · exact Or.inr (List.mem_cons_of_mem _ hmem)

/-- The slots below the first are not written. -/
theorem getElem?_fillSlots_of_lt {funcs : List Word} {k p : Nat} {buf : List Word} (hp : p < cvmFnSlot k) :
    (fillSlots funcs k buf)[p]? = buf[p]? := by
  induction funcs generalizing k buf with
  | nil => rfl
  | cons f funcs ih =>
    have hne : cvmFnSlot k ≠ p := Nat.ne_of_gt hp
    rw [fillSlots_cons, ih (by simp only [cvmFnSlot] at *; omega), List.getElem?_set_ne hne]

/-- Function `j` is in its slot. -/
theorem getElem?_fillSlots {funcs : List Word} {k j : Nat} {buf : List Word} (hj : j < funcs.length)
    (hbuf : cvmFnSlot (k + j) < buf.length) : (fillSlots funcs k buf)[cvmFnSlot (k + j)]? = funcs[j]? := by
  induction funcs generalizing k j buf with
  | nil => exact absurd hj (Nat.not_lt_zero j)
  | cons f funcs ih =>
    rw [fillSlots_cons]
    cases j with
    | zero =>
      rw [getElem?_fillSlots_of_lt (by simp only [cvmFnSlot]; omega)]
      exact List.getElem?_set_self hbuf
    | succ j =>
      have hset : cvmFnSlot (k + 1 + j) < (buf.set (cvmFnSlot k) f).length := by
        rw [List.length_set]
        simpa [Nat.add_assoc, Nat.add_comm 1 j] using hbuf
      have h := ih (Nat.lt_of_succ_lt_succ hj) hset
      rw [Nat.add_assoc, Nat.add_comm 1 j] at h
      exact h

/-- The table of functions, filled slot by slot. -/
theorem funcsWords_of (he : src.emitFuncs = true) (hne : src.funcs ≠ []) : src.funcsWords =
    fillSlots src.funcs 0 (List.replicate (cvmFnSlot (src.funcs.length - 1) + 1) 0) :=
  if_pos ⟨he, List.length_pos_iff.mpr hne⟩

/-- Each function is in its slot. -/
theorem funcsWords_slot (he : src.emitFuncs = true) {k : Nat} (hk : k < src.funcs.length) :
    src.funcsWords[cvmFnSlot k]? = src.funcs[k]? := by
  have hne : src.funcs ≠ [] := List.ne_nil_of_length_pos (Nat.zero_lt_of_lt hk)
  have hbuf : cvmFnSlot (0 + k) < (List.replicate (cvmFnSlot (src.funcs.length - 1) + 1) (0 : Word)).length := by
    simp only [List.length_replicate, cvmFnSlot]
    omega
  have h := getElem?_fillSlots hk hbuf
  rw [Nat.zero_add] at h
  rw [funcsWords_of he hne, h]

/-- Every word of the function table is a place in the code. -/
theorem funcsWords_lt (h : src.Valid) : ∀ w ∈ src.funcsWords, w.toNat < src.code.length := by
  intro w hw
  unfold BinSource.funcsWords at hw
  split at hw
  · rcases mem_fillSlots (k := 0) hw with hz | hf
    · rw [(List.mem_replicate.mp hz).2]
      exact List.length_pos_iff.mpr h.code
    · exact h.funcs_lt w hf
  · exact absurd hw List.not_mem_nil

theorem length_funcsBuf : src.funcsBuf.length = src.funcsWords.length * 4 := length_words _

/-! ## Regions -/

/-- An entry of a region has a fixed size. -/
theorem length_regionEntry {r : CliRegion} (h : r.Valid) : (BinSource.regionEntry r).length = regionEntrySize := by
  simp [BinSource.regionEntry, h.name_length, regionEntrySize]

/-- The table of regions: a count and the entries. -/
theorem regionsBuf_of_ne (hne : src.regions ≠ []) :
    src.regionsBuf = putU32Le (BitVec.ofNat 32 src.regions.length) ++ src.regions.flatMap BinSource.regionEntry :=
  if_pos (List.length_pos_iff.mpr hne)

theorem regionsBuf_nil (h : src.regions = []) : src.regionsBuf = [] := if_neg (by simp [h])

/-- Its length. -/
theorem length_regionsBuf (h : src.Valid) (hne : src.regions ≠ []) :
    src.regionsBuf.length = 4 + src.regions.length * regionEntrySize := by
  rw [regionsBuf_of_ne hne, List.length_append, length_flatMap_const fun r hr => length_regionEntry (h.regions_ok r hr)]
  rfl

/-- What a region table that holds the regions of `src` says of entry `k`. -/
structure RegionAt (base : List Byte) (rp k : Nat) (r : CliRegion) : Prop where
  name : regionName base rp k = r.name
  size : regionSize base rp k = r.size
  direction : u32At base (rp + 4 + k * regionEntrySize + 20) = r.direction
  flags : u32At base (rp + 4 + k * regionEntrySize + 24) = 0
  first : base.getD (rp + 4 + k * regionEntrySize) 0 = r.name.getD 0 0

/-- A region can be read back from its entry. -/
theorem region_at (h : src.Valid) {base : List Byte} {rp : Nat} (hat : HasAt base rp src.regionsBuf) {k : Nat}
    (hk : k < src.regions.length) : RegionAt base rp k src.regions[k] := by
  have hne : src.regions ≠ [] := List.ne_nil_of_length_pos (Nat.zero_lt_of_lt hk)
  have hr := h.regions_ok _ (List.getElem_mem hk)
  have htake : src.regions[k].name.take 16 = src.regions[k].name := by
    rw [← hr.name_length, List.take_length]
  rw [regionsBuf_of_ne hne] at hat
  have he := hat.right.trans (HasAt.flatMap (fun r hr => length_regionEntry (h.regions_ok r hr)) hk)
  rw [BinSource.regionEntry, htake, length_putU32Le] at he
  have hname := he.left.left.left
  have hsize := u32At_of_hasAt he.left.left.right
  have hdir := u32At_of_hasAt he.left.right
  have hflag := u32At_of_hasAt he.right
  simp only [List.length_append, length_putU32Le, hr.name_length] at hsize hdir hflag
  refine ⟨?_, hsize, hdir, hflag, ?_⟩
  · have := sliceAt_of_hasAt hname
    rwa [hr.name_length] at this
  · have hpos : 0 < src.regions[k].name.length := by rw [hr.name_length]; decide
    exact hname.getD hpos 0

/-! ## The checks of the table -/

/-- The loader accepts every entry. -/
theorem accepts_writeBin (h : src.Valid) {i : Nat} (hi : i < src.present.length) :
    LoadAux.Accepts (writeBin src) 24 i src.present[i] := by
  have hentry := entryAt_writeBin h.code hi
  have hpos : 0 < src.secSize src.present[i] := mem_present.mp (List.getElem_mem hi)
  have hmod := Nat.mod_eq_of_lt (secSize_lt h.code h.file_lt src.present[i])
  constructor
  case type_eq =>
    rw [hentry]
    exact SectionType.ofNum?_num _
  case flags =>
    rw [hentry]
    rfl
  case fresh =>
    intro _
    have hnot : src.present[i] ∉ src.present.take i := fun hmem => by
      obtain ⟨j, hj, heq⟩ := List.mem_take_iff_getElem.mp hmem
      exact List.pairwise_iff_getElem.mp nodup_present j i (by omega) hi (by omega) heq
    rw [findEntry, map_entryAt h.code (Nat.le_of_lt hi), find?_map_entryOf, if_neg hnot]
  case payload =>
    intro hp
    have hd : src.present[i] ≠ .debug := fun hd => by simp [hd, BinSource.secSize] at hpos
    have hend := section_end_le h.code hp hd
    have hlt := h.file_lt
    rw [hentry]
    simp only [BinSource.entryOf, BitVec.toNat_ofNat]
    omega
  case noPayload =>
    intro hp
    have hoff : src.secOff src.present[i] = 0 := by
      generalize src.present[i] = t at hp
      cases t <;> first | rfl | simp [SectionType.hasPayload] at hp
    rw [hentry]
    simp only [BinSource.entryOf, hoff]
    rfl
  case whole =>
    intro ht
    have hwords : src.secSize src.present[i] % 4 = 0 := by
      rcases ht with ht | ht
      · rw [ht]
        exact Nat.mul_mod_left _ _
      · rw [ht, BinSource.secSize, length_funcsBuf, Nat.mul_mod_left]
    rw [hentry]
    simp only [BinSource.entryOf, ne_eq, ← BitVec.toNat_inj, BitVec.toNat_umod, BitVec.toNat_ofNat, hmod]
    refine ⟨Nat.ne_of_gt hpos, ?_⟩
    simpa using hwords

/-! ## The checks of the payloads -/

theorem imports_ne_nil (hpos : 0 < src.secSize .imports) : src.imports ≠ [] := by
  intro hnil
  rw [BinSource.secSize, importsBuf_nil hnil] at hpos
  exact absurd hpos (Nat.not_lt_zero 0)

theorem regions_ne_nil (hpos : 0 < src.secSize .hostRegion) : src.regions ≠ [] := by
  intro hnil
  rw [BinSource.secSize, regionsBuf_nil hnil] at hpos
  exact absurd hpos (Nat.not_lt_zero 0)

/-- The imports stand where the section table says. -/
theorem hasAt_imports (h : src.Valid) : HasAt (writeBin src) src.importsOff src.importsBuf :=
  hasAt_section (t := .imports) h.code rfl (by decide)

/-- Their number is read. -/
theorem importCount_at (h : src.Valid) (hpos : 0 < src.secSize .imports) :
    (u32At (writeBin src) src.importsOff).toNat = src.imports.length := by
  have hat := hasAt_imports h
  have hle := h.imports_le
  rw [importsBuf_of_ne (imports_ne_nil hpos)] at hat
  rw [u32At_of_hasAt hat.left.left, BitVec.toNat_ofNat, Nat.mod_eq_of_lt (by omega)]

/-- The import table, with the place of each name. -/
theorem importName_at (h : src.Valid) (hpos : 0 < src.secSize .imports) {k : Nat} (hk : k < src.imports.length) : ∃ off,
    (importOff (writeBin src) src.importsOff k).toNat = off ∧ off < src.secSize .imports ∧
      ∃ rest, src.importsBuf.drop off = src.imports[k] ++ 0 :: rest := by
  obtain ⟨off, hoff, hname⟩ := import_at (imports_ne_nil hpos) hk
  have hentry := u32At_of_hasAt ((hasAt_imports h).trans hoff)
  have hlen := hname.length_le
  have hsize := secSize_lt h.code h.file_lt .imports
  rw [List.length_append, List.length_singleton] at hlen
  rw [BinSource.secSize] at hsize
  have hlt : off < src.importsBuf.length := by omega
  refine ⟨off, ?_, hlt, ?_⟩
  · rw [importOff, Nat.add_assoc, hentry, BitVec.toNat_ofNat, Nat.mod_eq_of_lt (by omega)]
  · obtain ⟨a, b, hbuf, rfl⟩ := hname
    exact ⟨b, by rw [hbuf, List.drop_left]; simp⟩

/-- The offsets lie inside the section. -/
theorem le_length_importsBuf (hpos : 0 < src.secSize .imports) : 4 + src.imports.length * 4 ≤ src.secSize .imports := by
  rw [BinSource.secSize, importsBuf_of_ne (imports_ne_nil hpos), List.length_append, List.length_append,
    length_flatMap_const fun off _ => length_putU32Le (BitVec.ofNat 32 off), length_nameOffsets, length_putU32Le]
  exact Nat.le_add_right _ _

/-- The loader accepts the imports. -/
theorem importTable_writeBin (h : src.Valid) (hpos : 0 < src.secSize .imports) :
    ImportTableOk (writeBin src) (fileOff (writeBin src) .imports).toNat (fileSize (writeBin src) .imports) := by
  have hsize := toNat_fileSize h.code h.file_lt .imports
  have hoff := toNat_fileOff h.code h.file_lt (t := .imports) rfl (by decide) hpos
  have hle := le_length_importsBuf hpos
  rw [hoff]
  refine ⟨by omega, ?_, ?_, fun k hk => ?_⟩
  · rw [BinSource.secOff, importCount_at h hpos]
    exact h.imports_le
  · rw [BinSource.secOff, importCount_at h hpos, hsize]
    exact hle
  · rw [BinSource.secOff, importCount_at h hpos] at hk
    obtain ⟨off, hentry, hlt, rest, hdrop⟩ := importName_at h hpos hk
    have hoff_lt : importOff (writeBin src) src.importsOff k < fileSize (writeBin src) .imports := by
      rw [BitVec.lt_def, hentry, hsize]
      exact hlt
    refine ⟨hoff_lt, ?_⟩
    have hslice := (hasAt_imports h).take_drop_add off
    rw [BinSource.secOff, BitVec.toNat_sub_of_le (BitVec.le_of_lt hoff_lt), hentry, hsize]
    rw [sliceAt, BinSource.secSize, hslice, hdrop]
    exact List.mem_append_right _ List.mem_cons_self

/-- The regions stand where the section table says. -/
theorem hasAt_regions (h : src.Valid) : HasAt (writeBin src) src.regionsOff src.regionsBuf :=
  hasAt_section (t := .hostRegion) h.code rfl (by decide)

/-- Their number is read. -/
theorem regionCount_at (h : src.Valid) (hpos : 0 < src.secSize .hostRegion) :
    (u32At (writeBin src) src.regionsOff).toNat = src.regions.length := by
  have hat := hasAt_regions h
  have hle := h.regions_le
  rw [regionsBuf_of_ne (regions_ne_nil hpos)] at hat
  rw [u32At_of_hasAt hat.left, BitVec.toNat_ofNat, Nat.mod_eq_of_lt (by omega)]

/-- The aligned sizes add up as the loader adds them. -/
theorem alignedBefore_writeBin (h : src.Valid) {n : Nat} (hn : n ≤ src.regions.length) :
    alignedBefore (writeBin src) src.regionsOff n = ((src.regions.take n).map fun r => align4 r.size.toNat).sum := by
  induction n with
  | zero => rfl
  | succ n ih =>
    rw [alignedBefore, ih (Nat.le_of_lt hn), (region_at h (hasAt_regions h) hn).size, List.take_succ_eq_append_getElem hn]
    simp only [List.map_append, List.map_cons, List.map_nil, List.sum_append, List.sum_cons, List.sum_nil, Nat.add_zero]

/-- The loader accepts them. -/
theorem regionTable_writeBin (h : src.Valid) (hpos : 0 < src.secSize .hostRegion) :
    RegionTableOk (writeBin src) (fileOff (writeBin src) .hostRegion).toNat (fileSize (writeBin src) .hostRegion) := by
  have hsize := toNat_fileSize h.code h.file_lt .hostRegion
  have hoff := toNat_fileOff h.code h.file_lt (t := .hostRegion) rfl (by decide) hpos
  have hlen : src.secSize .hostRegion = _ := length_regionsBuf h (regions_ne_nil hpos)
  rw [hoff, BinSource.secOff]
  refine ⟨by omega, ?_, ?_, ⟨fun i hi => ?_, ?_⟩⟩
  · rw [regionCount_at h hpos]
    exact h.regions_le
  · refine Nat.le_of_eq ?_
    rw [regionCount_at h hpos, hsize, hlen]
  · rw [regionCount_at h hpos] at hi
    have hreg := h.regions_ok _ (List.getElem_mem hi)
    have hat := region_at h (hasAt_regions h) hi
    refine ⟨?_, ?_, hat.flags, ?_, fun j hj => ?_⟩
    · rw [hat.name]
      exact hreg.name_nul
    · rw [hat.first]
      exact hreg.name_first
    · rw [hat.direction]
      rintro (hlt | hgt)
      · exact BitVec.not_le.mpr hlt hreg.direction.1
      · exact BitVec.not_le.mpr hgt hreg.direction.2
    · have hji := List.pairwise_iff_getElem.mp h.regions_distinct j i (Nat.lt_trans hj hi) hi hj
      rw [hat.name, (region_at h (hasAt_regions h) (Nat.lt_trans hj hi)).name, strncmpEq, BEq.comm]
      exact hji
  · have hmem := h.mem_lt
    simp only [BinSource.memSize] at hmem
    rw [regionCount_at h hpos, alignedBefore_writeBin h (Nat.le_refl _), List.take_length]
    omega

/-! ## The whole file -/

/-- It finds as many as there are. -/
theorem fileRegionCount_writeBin (h : src.Valid) : (fileRegionCount (writeBin src)).toNat = src.regions.length := by
  rw [fileRegionCount]
  split
  case isTrue hp =>
    have hpos := (fileSize_pos h.code h.file_lt _).mp hp
    rw [toNat_fileOff h.code h.file_lt rfl (by decide) hpos]
    exact regionCount_at h hpos
  case isFalse hp =>
    have hzero : ¬0 < src.secSize .hostRegion := fun hpos => hp ((fileSize_pos h.code h.file_lt _).mpr hpos)
    by_cases hne : src.regions = []
    · rw [hne]; rfl
    · have := length_regionsBuf h hne
      rw [BinSource.secSize] at hzero
      omega

/-- Together they take the sum of their sizes, each rounded up to words. -/
theorem fileRegionTotal_writeBin (h : src.Valid) :
    fileRegionTotal (writeBin src) = (src.regions.map fun r => align4 r.size.toNat).sum := by
  rw [fileRegionTotal, fileRegionCount_writeBin h]
  by_cases hne : src.regions = []
  · rw [hne]; rfl
  · have hpos : 0 < src.secSize .hostRegion := by
      have := length_regionsBuf h hne
      rw [BinSource.secSize]
      omega
    rw [toNat_fileOff h.code h.file_lt rfl (by decide) hpos]
    exact (alignedBefore_writeBin h (Nat.le_refl _)).trans (by rw [List.take_length])

/-- The loader asks for the memory of the source. -/
theorem fileMemTotal_writeBin (h : src.Valid) : fileMemTotal (writeBin src) = src.memSize := by
  simp only [fileMemTotal, fileHeapTotal, fileRomStart, fileRegionTotal_writeBin h, toNat_fileSize h.code h.file_lt, BinSource.secSize,
    BinSource.memSize, Nat.add_zero]

/-- The number of instructions is read. -/
theorem codeCount_writeBin (h : src.Valid) : (fileSize (writeBin src) .code / 4).toNat = src.code.length := by
  rw [BitVec.toNat_udiv, toNat_fileSize h.code h.file_lt]
  exact Nat.mul_div_cancel _ (by decide)

/-- A file that is written from valid arguments is loadable. -/
theorem loadable_writeBin (h : src.Valid) : Loadable (writeBin src) := by
  have hmem : fileMemTotal (writeBin src) ≤ 0xFFFFFFFF := by
    rw [fileMemTotal_writeBin h]
    exact Nat.le_of_lt_succ h.mem_lt
  have htable : 24 + src.present.length * sectionSize ≤ (writeBin src).length := by
    have := (hasAt_table h.code).length_le
    rwa [table_eq h.code, length_flatMap_const (n := sectionSize) fun t _ => rfl] at this
  have hcode : 0 < src.secSize .code := Nat.mul_pos (List.length_pos_iff.mpr h.code) (by decide)
  constructor
  case length => exact Nat.le_trans (Nat.le_add_right _ _) htable
  case magic => exact magicOk_writeBin h.code
  case version => exact version_writeBin h.code
  case flags => exact flags_writeBin h.code
  case table =>
    rw [tableOff_writeBin h.code, toNat_sectionCount h.code]
    exact htable
  case sections =>
    intro i hi
    rw [toNat_sectionCount h.code] at hi
    rw [tableOff_writeBin h.code]
    exact ⟨_, accepts_writeBin h hi⟩
  case code => rw [fileEntry_writeBin h.code, if_pos hcode]; rfl
  case entry =>
    rw [entry_writeBin h.code, BitVec.lt_def, codeCount_writeBin h]
    exact h.entry_lt
  case regions => exact fun hp => regionTable_writeBin h ((fileSize_pos h.code h.file_lt _).mp hp)
  case heap_le => exact Nat.le_trans (Nat.le_add_right _ _) hmem
  case stack =>
    rintro ⟨hne, hlt⟩
    rw [BitVec.lt_def, toNat_fileSize h.code h.file_lt, BinSource.secSize] at hlt
    rcases h.stack with hz | hge
    · rw [fileSize_writeBin h.code, BinSource.secSize, hz] at hne
      exact hne rfl
    · exact Nat.not_lt.mpr hge hlt
  case mem_le => exact hmem
  case imports => exact fun hp => importTable_writeBin h ((fileSize_pos h.code h.file_lt _).mp hp)

/-- The words of the function table in the file. -/
theorem funcs_at (h : src.Valid) (hpos : 0 < src.secSize .funcs) :
    wordsAt (writeBin src) (fileOff (writeBin src) .funcs).toNat (fileSize (writeBin src) .funcs / 4).toNat = src.funcsWords := by
  have hat := hasAt_section (t := .funcs) h.code rfl (by decide)
  have hcount : (fileSize (writeBin src) .funcs / 4).toNat = src.funcsWords.length := by
    rw [BitVec.toNat_udiv, toNat_fileSize h.code h.file_lt, BinSource.secSize, length_funcsBuf]
    exact Nat.mul_div_cancel _ (by decide)
  rw [toNat_fileOff h.code h.file_lt rfl (by decide) hpos, hcount]
  exact wordsAt_of_hasAt hat

/-- Its function table stays in the code. -/
theorem funcsOk_writeBin (h : src.Valid) : FuncsOk (writeBin src) := by
  intro i hi
  have hpos : 0 < src.secSize .funcs := by
    rw [BitVec.toNat_udiv, toNat_fileSize h.code h.file_lt] at hi
    exact Nat.pos_of_ne_zero fun hz => by simp [hz] at hi
  have hmem : u32At (writeBin src) ((fileOff (writeBin src) .funcs).toNat + i * 4) ∈ src.funcsWords := by
    rw [← funcs_at h hpos]
    exact List.mem_map.mpr ⟨i, List.mem_range.mpr hi, rfl⟩
  rw [BitVec.lt_def, codeCount_writeBin h]
  exact funcsWords_lt h _ hmem

end WrittenAux

end CronoVM
