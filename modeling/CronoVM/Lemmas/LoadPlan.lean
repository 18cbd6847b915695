import CronoVM.Lemmas.SectionTable

/-!
# What the checks of the loader accept

`Loadable` says of a file what `cvm_load_ex` checks before its first allocation, and `PlanOf` what it then knows. `loadPlan` reads
nothing outside the file, and succeeds exactly on loadable files.
-/

namespace CronoVM

open Checked

/-! ## Regions -/

/-- The name field of region entry `i` of the table at `rp`. -/
def regionName (base : List Byte) (rp i : Nat) : List Byte := sliceAt base (rp + 4 + i * regionEntrySize) 16

/-- The size field of region entry `i`. -/
def regionSize (base : List Byte) (rp i : Nat) : Word := u32At base (rp + 4 + i * regionEntrySize + 16)

/-- The total of the aligned sizes of the regions before `n`. -/
def alignedBefore (base : List Byte) (rp : Nat) : Nat → Nat
  | 0 => 0
  | n + 1 => alignedBefore base rp n + align4 (regionSize base rp n).toNat

/-- A well-formed region entry. -/
structure RegionEntryOk (base : List Byte) (rp i : Nat) : Prop where
  nul : (0 : Byte) ∈ regionName base rp i
  nonempty : base.getD (rp + 4 + i * regionEntrySize) 0 ≠ 0
  flags : u32At base (rp + 4 + i * regionEntrySize + 24) = 0
  direction : ¬(u32At base (rp + 4 + i * regionEntrySize + 20) < regionR ∨
    u32At base (rp + 4 + i * regionEntrySize + 20) > regionRw)
  distinct : ∀ j, j < i → strncmpEq (regionName base rp i) (regionName base rp j) 16 = false

/-- The first `n` entries are well formed, and their total has 32 bits. -/
structure RegionsOk (base : List Byte) (rp n : Nat) : Prop where
  entries : ∀ i, i < n → RegionEntryOk base rp i
  total : alignedBefore base rp n ≤ 0xFFFFFFFF

/-- A well-formed region table of `size` bytes at `rp`. -/
structure RegionTableOk (base : List Byte) (rp : Nat) (size : Word) : Prop where
  size_ge : 4 ≤ size.toNat
  count_le : (u32At base rp).toNat ≤ 0xFFFF
  entries_end : 4 + (u32At base rp).toNat * regionEntrySize ≤ size.toNat
  regions : RegionsOk base rp (u32At base rp).toNat

/-- The region count of a file; 0 when it has no table. -/
def fileRegionCount (base : List Byte) : Word :=
  if fileSize base .hostRegion > 0 then u32At base (fileOff base .hostRegion).toNat else 0

/-- The total of the aligned region sizes of a file. -/
def fileRegionTotal (base : List Byte) : Nat :=
  alignedBefore base (fileOff base .hostRegion).toNat (fileRegionCount base).toNat

/-! ## Imports -/

/-- The name offset of import `i` of the table at `ip`. -/
def importOff (base : List Byte) (ip i : Nat) : Word := u32At base (ip + 4 + i * 4)

/-- The name of import `i` starts inside a table of `size` bytes and ends there. -/
structure ImportEntryOk (base : List Byte) (ip : Nat) (size : Word) (i : Nat) : Prop where
  off_lt : importOff base ip i < size
  nul : (0 : Byte) ∈ sliceAt base (ip + (importOff base ip i).toNat) (size - importOff base ip i).toNat

/-- A well-formed import table of `size` bytes at `ip`. -/
structure ImportTableOk (base : List Byte) (ip : Nat) (size : Word) : Prop where
  size_ge : 4 ≤ size.toNat
  count_le : (u32At base ip).toNat ≤ 0xFFFF
  entries_end : 4 + (u32At base ip).toNat * 4 ≤ size.toNat
  entries : ∀ i, i < (u32At base ip).toNat → ImportEntryOk base ip size i

/-- The import count of a file; 0 when it has no table. -/
def fileImportCount (base : List Byte) : Word :=
  if fileSize base .imports > 0 then u32At base (fileOff base .imports).toNat else 0

/-! ## The whole file -/

/-- Where the ROM slice starts in memory. -/
def fileRomStart (base : List Byte) : Nat :=
  (fileSize base .data).toNat + (fileSize base .bss).toNat + fileRegionTotal base

/-- The size of the memory without the stack. -/
def fileHeapTotal (base : List Byte) : Nat :=
  fileRomStart base + (fileSize base .rom).toNat + (fileSize base .heapReserve).toNat

/-- The size of the memory. -/
def fileMemTotal (base : List Byte) : Nat := fileHeapTotal base + (fileSize base .stackReserve).toNat

/-- What `cvm_load_ex` asks of a file before it allocates. -/
structure Loadable (base : List Byte) : Prop where
  length : headerSize ≤ base.length
  magic : magicOk base = true
  version : u32At base 4 = version10
  flags : u32At base 8 = 0
  table : (u32At base 16).toNat + (u32At base 12).toNat * sectionSize ≤ base.length
  sections : ∀ i, i < (u32At base 12).toNat → ∃ type, LoadAux.Accepts base (u32At base 16) i type
  code : (fileEntry base .code).isSome = true
  entry : u32At base 20 < fileSize base .code / 4
  regions : fileSize base .hostRegion > 0 →
    RegionTableOk base (fileOff base .hostRegion).toNat (fileSize base .hostRegion)
  heap_le : fileHeapTotal base ≤ 0xFFFFFFFF
  stack : ¬(fileSize base .stackReserve ≠ 0 ∧ fileSize base .stackReserve < 4)
  mem_le : fileMemTotal base ≤ 0xFFFFFFFF
  imports : fileSize base .imports > 0 → ImportTableOk base (fileOff base .imports).toNat (fileSize base .imports)

/-- What the loader knows of a loadable file when it starts to allocate. -/
structure PlanOf (base : List Byte) (p : LoadPlan) : Prop where
  size : ∀ type, LoadAux.Kept type → p.sections.size type = fileSize base type
  off : ∀ type, LoadAux.Kept type → type.hasPayload = true → p.sections.off type = fileOff base type
  codeCount : p.codeCount = fileSize base .code / 4
  entry : p.entry = u32At base 20
  regionCount : p.regionCount = fileRegionCount base
  romOffset : p.romOffset = fileSize base .data + fileSize base .bss + BitVec.ofNat 32 (fileRegionTotal base)
  heapTotal : p.heapTotal = fileHeapTotal base
  memTotal : p.memTotal = fileMemTotal base
  importCount : p.importCount = fileImportCount base

namespace LoadAux

variable {A : Type} {base : List Byte}

/-! ## The region loop -/

theorem alignedBefore_mono {rp m n : Nat} (h : m ≤ n) : alignedBefore base rp m ≤ alignedBefore base rp n := by
  induction h with
  | refl => exact Nat.le_refl _
  | step _ ih => exact Nat.le_trans ih (Nat.le_add_right _ _)

/-- One region entry: the turn succeeds exactly on a well-formed entry that keeps the total below 2³². -/
theorem wp_loadRegionEntry {rp i : Nat} {s : LoadState A} (hread : rp + 4 + (i + 1) * regionEntrySize ≤ base.length) :
    Exec.wp (loadRegionEntry base rp i (alignedBefore base rp i))
      (fun total t => t = s ∧ total = alignedBefore base rp (i + 1) ∧ RegionEntryOk base rp i ∧
        alignedBefore base rp (i + 1) ≤ 0xFFFFFFFF)
      (fun _ t => t = s ∧ ¬(RegionEntryOk base rp i ∧ alignedBefore base rp (i + 1) ≤ 0xFFFFFFFF)) s := by
  have hsz : (i + 1) * regionEntrySize = i * regionEntrySize + 28 := by rw [Nat.add_mul]; rfl
  have hother : ∀ j, j < i → rp + 4 + j * regionEntrySize + 16 ≤ base.length := by
    intro j hj
    have : j * regionEntrySize ≤ i * regionEntrySize := Nat.mul_le_mul_right _ (Nat.le_of_lt hj)
    omega
  simp only [loadRegionEntry, Exec.wp_bind, wp_readSlice, wp_readU8, wp_readU32Le, Exec.wp_stopIf, Exec.wp_pure]
  refine ⟨by omega, fun h => ⟨trivial, fun hk => h hk.1.nul⟩, fun hnul => ⟨by omega, fun h => ⟨trivial, fun hk => hk.1.nonempty h⟩,
    fun hfirst => ⟨by omega, by omega, by omega, fun h => ⟨trivial, fun hk => h hk.1.flags⟩, fun hflag =>
    ⟨fun h => ⟨trivial, fun hk => hk.1.direction h⟩, fun hdir => ?_⟩⟩⟩⟩
  refine Exec.wp_forRange (fun j _ t => t = s ∧ ∀ k, k < j → strncmpEq (regionName base rp i) (regionName base rp k) 16 = false)
    ⟨rfl, fun _ h => absurd h (Nat.not_lt_zero _)⟩ ?_ ?_
  · rintro j hj _ t ⟨rfl, hdistinct⟩
    simp only [Exec.wp_bind, wp_readSlice, Exec.wp_stopIf]
    refine ⟨hother j hj, fun h => ⟨trivial, fun hk => ?_⟩, fun h => ⟨trivial, fun k hk => ?_⟩⟩
    · have := hk.1.distinct j hj
      rw [regionName, regionName, h] at this
      exact Bool.noConfusion this
    · rcases Nat.lt_succ_iff_lt_or_eq.mp hk with hlt | rfl
      · exact hdistinct k hlt
      · simpa [regionName] using h
  · rintro _ t ⟨rfl, hdistinct⟩
    refine ⟨fun h => ⟨rfl, fun hk => Nat.not_le.mpr h hk.2⟩, fun h => ⟨rfl, rfl, ?_, Nat.le_of_not_lt h⟩⟩
    exact ⟨not_not.mp hnul, hfirst, not_not.mp hflag, hdir, hdistinct⟩

/-- The region table: it is read inside the file, and rejected exactly when it is malformed. -/
theorem wp_loadRegions {t : Sections} {s : LoadState A} (hsize : t.size .hostRegion = fileSize base .hostRegion)
    (hoff : t.off .hostRegion = fileOff base .hostRegion)
    (hpayload : (fileOff base .hostRegion).toNat + (fileSize base .hostRegion).toNat ≤ base.length) :
    Exec.wp (loadRegions base t)
      (fun r s' => s' = s ∧ r = (fileRegionCount base, fileRegionTotal base) ∧ (fileSize base .hostRegion > 0 →
        RegionTableOk base (fileOff base .hostRegion).toNat (fileSize base .hostRegion)))
      (fun _ s' => s' = s ∧ ¬(fileSize base .hostRegion > 0 →
        RegionTableOk base (fileOff base .hostRegion).toNat (fileSize base .hostRegion))) s := by
  simp only [loadRegions, hsize, hoff, Exec.wp_ite, Exec.wp_bind, Exec.wp_stopIf, wp_readU32Le, Exec.wp_pure]
  refine ⟨fun hpos => ⟨fun h => ⟨trivial, fun hk => ?_⟩, fun h4 => ?_⟩, fun hzero => ⟨trivial, ?_, fun h => absurd h hzero⟩⟩
  · have := (hk hpos).size_ge
    simp only [BitVec.lt_def] at h
    have h4 : (4 : Word).toNat = 4 := rfl
    omega
  · have h4 : 4 ≤ (fileSize base .hostRegion).toNat := by simpa [BitVec.lt_def] using h4
    have hFFFF : (0xFFFF : Word).toNat = 0xFFFF := rfl
    refine ⟨by omega, fun h => ⟨trivial, fun hk => ?_⟩, fun hcount => ⟨fun h => ⟨trivial, fun hk => ?_⟩, fun hend => ?_⟩⟩
    · have := (hk hpos).count_le
      simp only [gt_iff_lt, BitVec.lt_def] at h
      omega
    · exact Nat.not_le.mpr h (hk hpos).entries_end
    have hcount' : fileRegionCount base = u32At base (fileOff base .hostRegion).toNat := if_pos hpos
    refine Exec.wp_forRange (fun i total s' => s' = s ∧ total = alignedBefore base (fileOff base .hostRegion).toNat i ∧
      RegionsOk base (fileOff base .hostRegion).toNat i) ⟨rfl, rfl, fun _ h => absurd h (Nat.not_lt_zero _), Nat.zero_le _⟩
      ?_ ?_
    · rintro i hi _ s' ⟨rfl, rfl, hok⟩
      have hmul : (i + 1) * regionEntrySize ≤ (u32At base (fileOff base .hostRegion).toNat).toNat * regionEntrySize :=
        Nat.mul_le_mul_right _ hi
      refine Exec.wp_mono ?_ ?_ (wp_loadRegionEntry (s := s') (by omega))
      · rintro total s'' ⟨rfl, rfl, hentry, htotal⟩
        refine ⟨rfl, rfl, fun j hj => ?_, htotal⟩
        rcases Nat.lt_succ_iff_lt_or_eq.mp hj with hlt | rfl
        · exact hok.entries j hlt
        · exact hentry
      · rintro e s'' ⟨rfl, hbad⟩
        refine ⟨rfl, fun hk => hbad ⟨(hk hpos).regions.entries i hi, ?_⟩⟩
        exact Nat.le_trans (alignedBefore_mono hi) (hk hpos).regions.total
    · rintro total s' ⟨rfl, rfl, hok⟩
      refine ⟨rfl, by rw [fileRegionTotal, hcount'], fun _ => ⟨h4, ?_, Nat.le_of_not_lt hend, hok⟩⟩
      simpa [BitVec.lt_def] using hcount
  · have hcount' : fileRegionCount base = 0 := if_neg hzero
    rw [fileRegionTotal, hcount']
    rfl

/-- The import table: it is read inside the file, and rejected exactly when it is malformed. -/
theorem wp_loadImports {t : Sections} {s : LoadState A} (hsize : t.size .imports = fileSize base .imports)
    (hoff : t.off .imports = fileOff base .imports)
    (hpayload : (fileOff base .imports).toNat + (fileSize base .imports).toNat ≤ base.length) :
    Exec.wp (loadImports base t)
      (fun r s' => s' = s ∧ r = fileImportCount base ∧ (fileSize base .imports > 0 →
        ImportTableOk base (fileOff base .imports).toNat (fileSize base .imports)))
      (fun _ s' => s' = s ∧ ¬(fileSize base .imports > 0 →
        ImportTableOk base (fileOff base .imports).toNat (fileSize base .imports))) s := by
  have hFFFF : (0xFFFF : Word).toNat = 0xFFFF := rfl
  have h4 : (4 : Word).toNat = 4 := rfl
  simp only [loadImports, hsize, hoff, Exec.wp_ite, Exec.wp_bind, Exec.wp_stopIf, wp_readU32Le, Exec.wp_pure]
  refine ⟨fun hpos => ⟨fun h => ⟨trivial, fun hk => ?_⟩, fun hge => ?_⟩, fun hzero => ⟨trivial, ?_, fun h => absurd h hzero⟩⟩
  · have := (hk hpos).size_ge
    simp only [BitVec.lt_def] at h
    omega
  · have hge : 4 ≤ (fileSize base .imports).toNat := by simpa [BitVec.lt_def] using hge
    refine ⟨by omega, fun h => ⟨trivial, fun hk => ?_⟩, fun hcount => ⟨fun h => ⟨trivial, fun hk => ?_⟩, fun hend => ?_⟩⟩
    · have := (hk hpos).count_le
      simp only [gt_iff_lt, BitVec.lt_def] at h
      omega
    · exact Nat.not_le.mpr h (hk hpos).entries_end
    refine Exec.wp_forRange (fun i _ s' => s' = s ∧
      ∀ j, j < i → ImportEntryOk base (fileOff base .imports).toNat (fileSize base .imports) j)
      ⟨rfl, fun _ h => absurd h (Nat.not_lt_zero _)⟩ ?_ ?_
    · rintro i hi _ s' ⟨rfl, hok⟩
      simp only [Exec.wp_bind, wp_readU32Le, Exec.wp_stopIf, wp_readSlice, hsize]
      refine ⟨by omega, fun h => ⟨trivial, fun hk => ?_⟩, fun hlt => ⟨?_, fun h => ⟨trivial, fun hk => ?_⟩, fun hnul =>
        ⟨trivial, fun j hj => ?_⟩⟩⟩
      · have := ((hk hpos).entries i hi).off_lt
        exact absurd h (BitVec.not_le.mpr this)
      · have hsub := BitVec.toNat_sub_of_le (BitVec.le_of_lt (BitVec.not_le.mp hlt))
        have := BitVec.lt_def.mp (BitVec.not_le.mp hlt)
        rw [hsub]
        omega
      · exact h ((hk hpos).entries i hi).nul
      · rcases Nat.lt_succ_iff_lt_or_eq.mp hj with hlt' | rfl
        · exact hok j hlt'
        · exact ⟨BitVec.not_le.mp hlt, not_not.mp hnul⟩
    · rintro _ s' ⟨rfl, hok⟩
      refine ⟨rfl, (if_pos hpos).symm, fun _ => ⟨hge, ?_, Nat.le_of_not_lt hend, hok⟩⟩
      simpa [BitVec.lt_def] using hcount
  · exact (if_neg hzero).symm

/-! ## The plan -/

/-- The locals after the whole table are the file's sections. -/
theorem SectionsAt.file_size {t : Sections} (ht : SectionsAt base (u32At base 16) (u32At base 12).toNat t) (type : SectionType)
    (hk : Kept type) : t.size type = fileSize base type := ht.size type hk

theorem SectionsAt.file_off {t : Sections} (ht : SectionsAt base (u32At base 16) (u32At base 12).toNat t) {type : SectionType}
    (hk : Kept type) (hp : type.hasPayload = true) : t.off type = fileOff base type := ht.off type hk hp

/-- The checks of `cvm_load_ex` stay inside the file, and succeed exactly on loadable files. -/
theorem wp_loadPlan {s : LoadState A} : Exec.wp (loadPlan base) (fun p s' => s' = s ∧ Loadable base ∧ PlanOf base p)
    (fun _ s' => s' = s ∧ ¬Loadable base) s := by
  simp only [loadPlan, Exec.wp_bind, Exec.wp_stopIf, wp_readU32Le, Exec.wp_pure]
  refine ⟨fun h => ⟨trivial, fun hk => Nat.not_le.mpr h hk.length⟩, fun hlen => ⟨fun h => ⟨trivial, fun hk => ?_⟩, fun hmagic => ?_⟩⟩
  · simp [hk.magic] at h
  have hlen : 24 ≤ base.length := Nat.le_of_not_lt hlen
  refine ⟨by omega, by omega, by omega, by omega, by omega, fun h => ⟨trivial, fun hk => h hk.version⟩, fun hversion =>
    ⟨fun h => ⟨trivial, fun hk => h hk.flags⟩, fun hflags => ⟨fun h => ⟨trivial, fun hk => Nat.not_le.mpr h hk.table⟩,
    fun htable => ?_⟩⟩⟩
  have htable : (u32At base 16).toNat + (u32At base 12).toNat * sectionSize ≤ base.length := Nat.le_of_not_lt htable
  refine Exec.wp_forRange (fun i t s' => s' = s ∧ SectionsAt base (u32At base 16) i t) ⟨rfl, sectionsAt_empty⟩ ?_ ?_
  · rintro i hi t s' ⟨rfl, ht⟩
    have hmul : (i + 1) * sectionSize ≤ (u32At base 12).toNat * sectionSize := Nat.mul_le_mul_right _ hi
    refine wp_loadSection (by omega) ht (fun _ t' _ ht' => ⟨rfl, ht'⟩) (fun hbad e => ⟨rfl, fun hk => ?_⟩)
    obtain ⟨type, htype⟩ := hk.sections i hi
    exact hbad type htype
  rintro t s' ⟨rfl, ht⟩
  have hpay : ∀ {type : SectionType}, type.hasPayload = true →
      (fileOff base type).toNat + (fileSize base type).toNat ≤ base.length := fun hp => payload_le ht.accepted hp
  have hdata := ht.file_size .data (by simp [Kept])
  have hbss := ht.file_size .bss (by simp [Kept])
  have hrom := ht.file_size .rom (by simp [Kept])
  have hheap := ht.file_size .heapReserve (by simp [Kept])
  have hstack := ht.file_size .stackReserve (by simp [Kept])
  have hcode := ht.file_size .code (by simp [Kept])
  have hregion := ht.file_size .hostRegion (by simp [Kept])
  have himports := ht.file_size .imports (by simp [Kept])
  have hhas : t.hasCode = (fileEntry base .code).isSome := ht.hasCode
  simp only [hdata, hbss, hrom, hheap, hstack, hcode, hhas]
  refine ⟨fun h => ⟨trivial, fun hk => by simp [hk.code] at h⟩, fun hsome => ⟨fun h => ⟨trivial, fun hk => ?_⟩, fun hentry => ?_⟩⟩
  · exact absurd h (BitVec.not_le.mpr hk.entry)
  refine Exec.wp_mono ?_ (fun e s'' h => ⟨h.1, fun hk => h.2 hk.regions⟩)
    (wp_loadRegions (s := s') hregion (ht.file_off (by simp [Kept]) rfl) (hpay rfl))
  rintro _ s'' ⟨rfl, rfl, hregions⟩
  refine ⟨fun h => ⟨rfl, fun hk => Nat.not_le.mpr h hk.heap_le⟩, fun hheap_le => ⟨fun h => ⟨rfl, fun hk => hk.stack h⟩,
    fun hstack_ok => ⟨fun h => ⟨rfl, fun hk => Nat.not_le.mpr h hk.mem_le⟩, fun hmem_le => ?_⟩⟩⟩
  refine Exec.wp_mono ?_ (fun e s'' h => ⟨h.1, fun hk => h.2 hk.imports⟩)
    (wp_loadImports (s := s'') himports (ht.file_off (by simp [Kept]) rfl) (hpay rfl))
  rintro _ s' ⟨rfl, rfl, himp⟩
  refine ⟨rfl, ⟨hlen, by simpa using hmagic, not_not.mp hversion, not_not.mp hflags, htable, ht.accepted,
    (Bool.not_eq_false _).mp hsome,
    BitVec.not_le.mp hentry, hregions, Nat.le_of_not_lt hheap_le, hstack_ok, Nat.le_of_not_lt hmem_le, himp⟩, ?_⟩
  exact ⟨ht.file_size, fun _ hk hp => ht.file_off hk hp, rfl, rfl, rfl, rfl, rfl, rfl, rfl⟩

end LoadAux

end CronoVM
