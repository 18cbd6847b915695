import CronoVM.Lib.HasAt
import CronoVM.Lemmas.LoadImage
import CronoVM.Translator.Writer

/-!
# What a written file holds

Where `write_bin` puts each piece of a file, and what the section table then says: the entry of a type is there exactly when its
section has bytes (or a size), with the place and size of its payload.
-/

namespace CronoVM

/-! ## Words and slices -/

/-- A word takes four bytes. -/
@[simp] theorem length_putU32Le (v : Word) : (putU32Le v).length = 4 := rfl

/-- A word that was written is read. -/
theorem u32At_of_hasAt {base : List Byte} {p : Nat} {v : Word} (h : HasAt base p (putU32Le v)) : u32At base p = v := by
  rw [← leWord_leByte v]
  refine leWord_congr fun k hk => ?_
  rw [h.getD hk]
  have : k = 0 ∨ k = 1 ∨ k = 2 ∨ k = 3 := by omega
  rcases this with rfl | rfl | rfl | rfl <;> rfl

/-- So are bytes. -/
theorem sliceAt_of_hasAt {base x : List Byte} {p : Nat} (h : HasAt base p x) : sliceAt base p x.length = x := h.take_drop

theorem length_words (ws : List Word) : (ws.flatMap putU32Le).length = ws.length * 4 :=
  length_flatMap_const fun w _ => length_putU32Le w

/-- A list of words, read back. -/
theorem wordsAt_of_hasAt {base : List Byte} {p : Nat} {ws : List Word} (h : HasAt base p (ws.flatMap putU32Le)) :
    wordsAt base p ws.length = ws := by
  apply List.ext_getElem
  · simp [wordsAt]
  · intro i hi hi'
    simp only [wordsAt, List.getElem_map, List.getElem_range]
    exact u32At_of_hasAt (h.trans (HasAt.flatMap (fun w _ => length_putU32Le w) hi'))

namespace BinSource

variable (src : BinSource)

/-! ## Sections -/

/-- The size of a section; 0 when it is absent. -/
def secSize : SectionType → Nat
  | .code => src.code.length * 4
  | .data => src.data.length
  | .imports => src.importsBuf.length
  | .heapReserve => src.heapReserve.toNat
  | .stackReserve => src.stackReserve.toNat
  | .funcs => src.funcsBuf.length
  | .hostRegion => src.regionsBuf.length
  | .rom => src.rom.length
  | .metadata => src.metadata.length
  | .integritySeal => if src.sealed then 12 else 0
  | .bss | .debug => 0

/-- The place of a section. -/
def secOff : SectionType → Nat
  | .code => src.codeOff
  | .data => src.dataOff
  | .imports => src.importsOff
  | .funcs => src.funcsOff
  | .hostRegion => src.regionsOff
  | .rom => src.romOff
  | .metadata => src.metadataOff
  | .integritySeal => src.sealOff
  | .heapReserve | .stackReserve | .bss | .debug => 0

/-- The types in the order `write_bin` writes them. -/
def order : List SectionType :=
  [.code, .data, .imports, .heapReserve, .stackReserve, .funcs, .hostRegion, .rom, .metadata, .integritySeal]

/-- The types of the sections that are present. -/
def present : List SectionType := order.filter fun t => 0 < src.secSize t

/-- The bytes of the entry of a type. -/
def entryBytes (t : SectionType) : List Byte := sectionBytes t (src.secOff t) (src.secSize t)

/-- The entry of a type. -/
def entryOf (t : SectionType) : SectionEntry :=
  { type := t.num, fileOff := BitVec.ofNat 32 (src.secOff t), size := BitVec.ofNat 32 (src.secSize t), flags := 0 }

/-- The payloads, before the seal. -/
def payload : List Byte :=
  src.codeBuf ++ (src.data ++ (src.importsBuf ++ (src.funcsBuf ++ (src.regionsBuf ++ (src.rom ++ src.metadata)))))

/-! ## The file -/

/-- The file up to the seal. -/
def front : List Byte := src.header ++ (src.table ++ src.payload)

/-- The seal with its CRC. -/
def sealPayload : List Byte :=
  if src.sealed then putU32Le sealMagic ++ (putU32Le 1 ++ putU32Le (cvmCrc32 src.front)) else []

/-- The bytes of a section. -/
def secBytes : SectionType → List Byte
  | .code => src.codeBuf
  | .data => src.data
  | .imports => src.importsBuf
  | .funcs => src.funcsBuf
  | .hostRegion => src.regionsBuf
  | .rom => src.rom
  | .metadata => src.metadata
  | .integritySeal => src.sealPayload
  | .heapReserve | .stackReserve | .bss | .debug => []

end BinSource

namespace WrittenAux

variable {src : BinSource}

theorem flatMap_filter {α β : Type} (p : α → Prop) [DecidablePred p] (f : α → List β) (l : List α) :
    (l.filter fun x => p x).flatMap f = l.flatMap fun x => if p x then f x else [] := by
  induction l with
  | nil => rfl
  | cons x l ih => by_cases h : p x <;> simp [h, ih]

theorem toNat_pos_iff (w : Word) : 0 < w.toNat ↔ w > 0 := by simp [BitVec.lt_def]

/-- The table lists the sections that are present. -/
theorem table_eq (hcode : src.code ≠ []) : src.table = src.present.flatMap src.entryBytes := by
  have hc : 0 < src.code.length * 4 := Nat.mul_pos (List.length_pos_iff.mpr hcode) (by decide)
  have hheap : src.heapReserve > 0 ↔ 0 < src.heapReserve.toNat := (toNat_pos_iff _).symm
  have hstack : src.stackReserve > 0 ↔ 0 < src.stackReserve.toNat := (toNat_pos_iff _).symm
  rw [BinSource.present, flatMap_filter]
  simp only [BinSource.order, List.flatMap_cons, List.flatMap_nil, List.append_nil, BinSource.entryBytes, BinSource.table,
    BinSource.secSize, BinSource.secOff, hheap, hstack, gt_iff_lt, hc, if_true, List.append_assoc]
  by_cases hs : src.sealed = true <;> simp [hs] <;> rfl

/-- The header counts the sections that are present. -/
theorem sectionCount_eq (hcode : src.code ≠ []) : src.sectionCount = src.present.length := by
  have hc : 0 < src.code.length * 4 := Nat.mul_pos (List.length_pos_iff.mpr hcode) (by decide)
  have hheap : src.heapReserve > 0 ↔ 0 < src.heapReserve.toNat := (toNat_pos_iff _).symm
  have hstack : src.stackReserve > 0 ↔ 0 < src.stackReserve.toNat := (toNat_pos_iff _).symm
  have hsum : ∀ l : List SectionType, (l.filter fun t => 0 < src.secSize t).length =
      (l.map fun t => if 0 < src.secSize t then 1 else 0).sum := by
    intro l
    induction l with
    | nil => rfl
    | cons t l ih => by_cases h : 0 < src.secSize t <;> simp [h, ih, Nat.add_comm]
  rw [BinSource.present, hsum]
  simp only [BinSource.order, List.map_cons, List.map_nil, List.sum_cons, List.sum_nil, BinSource.sectionCount,
    BinSource.secSize, hheap, hstack, gt_iff_lt, hc, if_true]
  by_cases hs : src.sealed = true <;> simp [hs, Nat.add_assoc] <;> rfl

/-! ## Where everything is -/

/-- The header takes 24 bytes. -/
theorem length_header : src.header.length = 24 := rfl

/-- Each entry of the table takes 16. -/
theorem length_table (hcode : src.code ≠ []) : src.table.length = src.sectionCount * 16 := by
  rw [table_eq hcode, length_flatMap_const (n := 16) fun t _ => rfl, sectionCount_eq hcode]

theorem length_codeBuf : src.codeBuf.length = src.code.length * 4 := length_words _

/-- A section with a payload has as many bytes as its size says. -/
theorem length_secBytes {t : SectionType} (hp : t.hasPayload = true) : (src.secBytes t).length = src.secSize t := by
  cases t with
  | code => exact length_codeBuf
  | integritySeal =>
    simp only [BinSource.secBytes, BinSource.secSize, BinSource.sealPayload]
    split <;> rfl
  | data | imports | funcs | hostRegion | rom | metadata | debug => rfl
  | bss | heapReserve | stackReserve => simp [SectionType.hasPayload] at hp

/-- The seal starts where the rest of the file ends. -/
theorem length_front (hcode : src.code ≠ []) : src.front.length = src.sealOff := by
  simp only [BinSource.front, BinSource.payload, List.length_append, length_header, length_table hcode, length_codeBuf,
    BinSource.sealOff, BinSource.metadataOff, BinSource.romOff, BinSource.regionsOff, BinSource.funcsOff, BinSource.importsOff,
    BinSource.dataOff, BinSource.codeOff, BinSource.tableOff]
  omega

/-- Bytes written over as many others take their place. -/
theorem overwrite_middle {a b c x : List Byte} (h : x.length = b.length) :
    overwrite (a ++ (b ++ c)) a.length x = a ++ (x ++ c) := by
  rw [overwrite, h, List.take_left, ← List.length_append, ← List.append_assoc a b c, List.drop_left, List.append_assoc]

/-- The CRC is written over the zero of the seal. -/
theorem writeBin_eq (hcode : src.code ≠ []) : writeBin src = src.front ++ src.sealPayload := by
  have hfile : src.header ++ src.table ++ src.codeBuf ++ src.data ++ src.importsBuf ++ src.funcsBuf ++ src.regionsBuf ++ src.rom
      ++ src.metadata ++ src.sealBuf = src.front ++ src.sealBuf := by
    simp only [BinSource.front, BinSource.payload, List.append_assoc]
  rw [writeBin, hfile]
  by_cases hs : src.sealed = true
  · have hcrc : crc32FilePrefix (src.front ++ src.sealBuf) src.sealOff = cvmCrc32 src.front := by
      rw [crc32FilePrefix, ← length_front hcode, List.take_left]
      rfl
    have hoff : src.sealOff + 8 = (src.front ++ (putU32Le sealMagic ++ putU32Le 1)).length := by
      rw [List.length_append, length_front hcode]
      rfl
    have hbuf : src.front ++ src.sealBuf = (src.front ++ (putU32Le sealMagic ++ putU32Le 1)) ++ (putU32Le 0 ++ []) := by
      simp only [BinSource.sealBuf, hs, if_true, List.append_assoc, List.append_nil]
    have hlen : (putU32Le (cvmCrc32 src.front)).length = (putU32Le 0).length := rfl
    rw [if_pos hs, hcrc, hoff, hbuf, overwrite_middle hlen]
    simp only [BinSource.sealPayload, hs, if_true, List.append_assoc, List.append_nil]
  · simp only [BinSource.sealBuf, BinSource.sealPayload, hs, Bool.false_eq_true, if_false]

/-- The table stands behind the header. -/
theorem hasAt_table (hcode : src.code ≠ []) : HasAt (writeBin src) 24 src.table := by
  rw [writeBin_eq hcode]
  exact (HasAt.whole _).left.right.left

/-- Every section is at its place. -/
theorem hasAt_section (hcode : src.code ≠ []) {t : SectionType} (hp : t.hasPayload = true) (hd : t ≠ .debug) :
    HasAt (writeBin src) (src.secOff t) (src.secBytes t) := by
  have hpay : HasAt (writeBin src) src.codeOff src.payload := by
    rw [writeBin_eq hcode]
    have h := (HasAt.whole (src.front ++ src.sealPayload)).left.right.right
    rwa [length_header, length_table hcode, Nat.zero_add] at h
  have hdata := hpay.right
  rw [length_codeBuf] at hdata
  have himports := hdata.right
  have hfuncs := himports.right
  have hregions := hfuncs.right
  have hrom := hregions.right
  cases t with
  | code => exact hpay.left
  | data => exact hdata.left
  | imports => exact himports.left
  | funcs => exact hfuncs.left
  | hostRegion => exact hregions.left
  | rom => exact hrom.left
  | metadata => exact hrom.right
  | integritySeal =>
    have h := (HasAt.whole (src.front ++ src.sealPayload)).right
    rw [length_front hcode, Nat.zero_add] at h
    rwa [writeBin_eq hcode]
  | debug => exact absurd rfl hd
  | bss | heapReserve | stackReserve => simp [SectionType.hasPayload] at hp

/-! ## What the table says -/

/-- The header stands at the beginning. -/
theorem hasAt_header (hcode : src.code ≠ []) : HasAt (writeBin src) 0 src.header := by
  rw [writeBin_eq hcode]
  exact (HasAt.whole _).left.left

/-- The file has the magic. -/
theorem magicOk_writeBin (hcode : src.code ≠ []) : magicOk (writeBin src) = true := by
  rw [magicOk, beq_iff_eq]
  exact (hasAt_header hcode).left.left.left.left.left.take_drop

/-- The version is 1.0. -/
theorem version_writeBin (hcode : src.code ≠ []) : u32At (writeBin src) 4 = version10 :=
  u32At_of_hasAt (hasAt_header hcode).left.left.left.left.right

theorem flags_writeBin (hcode : src.code ≠ []) : u32At (writeBin src) 8 = 0 :=
  u32At_of_hasAt (hasAt_header hcode).left.left.left.right

/-- The number of sections in the header. -/
theorem sectionCount_writeBin (hcode : src.code ≠ []) : u32At (writeBin src) 12 = BitVec.ofNat 32 src.present.length := by
  rw [← sectionCount_eq hcode]
  exact u32At_of_hasAt (hasAt_header hcode).left.left.right

theorem tableOff_writeBin (hcode : src.code ≠ []) : u32At (writeBin src) 16 = 24 :=
  u32At_of_hasAt (hasAt_header hcode).left.right

/-- The entry point in the header. -/
theorem entry_writeBin (hcode : src.code ≠ []) : u32At (writeBin src) 20 = src.entry := u32At_of_hasAt (hasAt_header hcode).right

/-- No section is there twice. -/
theorem nodup_present : src.present.Nodup := List.Pairwise.filter _ (by decide)

/-- There are at most ten. -/
theorem length_present_le : src.present.length ≤ 10 := List.length_filter_le _ _

theorem toNat_sectionCount (hcode : src.code ≠ []) : (u32At (writeBin src) 12).toNat = src.present.length := by
  have : src.present.length ≤ 10 := length_present_le
  rw [sectionCount_writeBin hcode, BitVec.toNat_ofNat, Nat.mod_eq_of_lt (by omega)]

/-- A section is there if it is not empty. -/
theorem mem_present {t : SectionType} : t ∈ src.present ↔ 0 < src.secSize t := by
  have : t ∈ BinSource.order ∨ src.secSize t = 0 := by cases t <;> simp [BinSource.order, BinSource.secSize]
  simp only [BinSource.present, List.mem_filter, decide_eq_true_eq]
  exact ⟨fun h => h.2, fun h => ⟨this.resolve_right (by omega), h⟩⟩

/-- The table lists the present sections in order. -/
theorem entryAt_writeBin (hcode : src.code ≠ []) {i : Nat} (hi : i < src.present.length) :
    entryAt (writeBin src) 24 i = src.entryOf src.present[i] := by
  have hlen : ∀ t ∈ src.present, (src.entryBytes t).length = sectionSize := fun t _ => rfl
  have h : HasAt (writeBin src) (24 + i * sectionSize) (src.entryBytes src.present[i]) := by
    have := hasAt_table hcode
    rw [table_eq hcode] at this
    exact this.trans (HasAt.flatMap hlen hi)
  have htype := u32At_of_hasAt h.left.left.left
  have hoff := u32At_of_hasAt h.left.left.right
  have hsize := u32At_of_hasAt h.left.right
  have hflags := u32At_of_hasAt h.right
  exact SectionEntry.mk.injEq .. |>.mpr ⟨htype, hoff, hsize, hflags⟩

/-- The table has the entries of the sections that are there. -/
theorem map_entryAt (hcode : src.code ≠ []) {n : Nat} (hn : n ≤ src.present.length) :
    (List.range n).map (entryAt (writeBin src) 24) = (src.present.take n).map src.entryOf := by
  apply List.ext_getElem
  · simp [Nat.min_eq_left hn]
  · intro i hi hi'
    have hlt : i < n := by simpa using hi
    simp only [List.getElem_map, List.getElem_range, List.getElem_take]
    exact entryAt_writeBin hcode (Nat.lt_of_lt_of_le hlt hn)

/-- The entry of a section is found by its type. -/
theorem find?_map_entryOf (t : SectionType) (l : List SectionType) :
    (l.map src.entryOf).find? (fun e => e.type == t.num) = if t ∈ l then some (src.entryOf t) else none := by
  induction l with
  | nil => rfl
  | cons u l ih =>
    by_cases h : u = t
    · simp [h, BinSource.entryOf]
    · have hne : u.num ≠ t.num := fun he => h (SectionType.num_injective he)
      have hne' : t ≠ u := fun he => h he.symm
      rw [List.map_cons, List.find?_cons_of_neg (by simpa [BinSource.entryOf] using hne), ih]
      simp [hne']

/-- The entry of a type is there exactly when its section is not empty. -/
theorem fileEntry_writeBin (hcode : src.code ≠ []) (t : SectionType) :
    fileEntry (writeBin src) t = if 0 < src.secSize t then some (src.entryOf t) else none := by
  rw [fileEntry, findEntry, tableOff_writeBin hcode, toNat_sectionCount hcode, map_entryAt hcode (Nat.le_refl _), List.take_length,
    find?_map_entryOf]
  simp only [mem_present]

/-- The loader reads the size of a section. -/
theorem fileSize_writeBin (hcode : src.code ≠ []) (t : SectionType) :
    fileSize (writeBin src) t = BitVec.ofNat 32 (src.secSize t) := by
  rw [fileSize, fileEntry_writeBin hcode]
  by_cases h : 0 < src.secSize t
  · rw [if_pos h]; rfl
  · rw [if_neg h, Nat.eq_zero_of_not_pos h]; rfl

/-- And its place. -/
theorem fileOff_writeBin (hcode : src.code ≠ []) {t : SectionType} (h : 0 < src.secSize t) :
    fileOff (writeBin src) t = BitVec.ofNat 32 (src.secOff t) := by
  rw [fileOff, fileEntry_writeBin hcode, if_pos h]
  rfl

/-! ## Numbers below 2³² -/

/-- A section with a payload lies in the file. -/
theorem section_end_le (hcode : src.code ≠ []) {t : SectionType} (hp : t.hasPayload = true) (hd : t ≠ .debug) :
    src.secOff t + src.secSize t ≤ (writeBin src).length := by
  rw [← length_secBytes hp]
  exact (hasAt_section hcode hp hd).length_le

/-- The size of a section fits a word. -/
theorem secSize_lt (hcode : src.code ≠ []) (hfile : (writeBin src).length < 2 ^ 32) (t : SectionType) : src.secSize t < 2 ^ 32 := by
  by_cases hp : t.hasPayload = true ∧ t ≠ .debug
  · have := section_end_le hcode hp.1 hp.2
    omega
  · cases t with
    | heapReserve => exact src.heapReserve.isLt
    | stackReserve => exact src.stackReserve.isLt
    | bss | debug => simp [BinSource.secSize]
    | code | data | imports | funcs | hostRegion | rom | metadata | integritySeal => simp [SectionType.hasPayload] at hp

/-- So the size that is read is that of the section. -/
theorem toNat_fileSize (hcode : src.code ≠ []) (hfile : (writeBin src).length < 2 ^ 32) (t : SectionType) :
    (fileSize (writeBin src) t).toNat = src.secSize t := by
  rw [fileSize_writeBin hcode, BitVec.toNat_ofNat, Nat.mod_eq_of_lt (secSize_lt hcode hfile t)]

/-- And the place is that of its bytes. -/
theorem toNat_fileOff (hcode : src.code ≠ []) (hfile : (writeBin src).length < 2 ^ 32) {t : SectionType} (hp : t.hasPayload = true)
    (hd : t ≠ .debug) (h : 0 < src.secSize t) : (fileOff (writeBin src) t).toNat = src.secOff t := by
  have := section_end_le hcode hp hd
  rw [fileOff_writeBin hcode h, BitVec.toNat_ofNat, Nat.mod_eq_of_lt (by omega)]

/-- A section that is not empty is seen. -/
theorem fileSize_pos (hcode : src.code ≠ []) (hfile : (writeBin src).length < 2 ^ 32) (t : SectionType) :
    fileSize (writeBin src) t > 0 ↔ 0 < src.secSize t := by
  rw [← toNat_pos_iff, toNat_fileSize hcode hfile]

end WrittenAux

end CronoVM
