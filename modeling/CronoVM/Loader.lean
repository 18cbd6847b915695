import CronoVM.Format

/-!
# The loader

`cvm_load_ex`: the header, the section table, the regions, the totals and the imports are checked before any block is allocated;
then the blocks are allocated, each failure freeing what was obtained, and filled from the file. `base` is the file's bytes, and every
read of it is checked.
-/

namespace CronoVM

open Checked

/-! ## Allocation -/

/-- Where a request goes: to the hook of the caller's `cvm_allocator_t`, or to the C library. -/
inductive Hook where
  | user | stdlib
  deriving DecidableEq, Repr

/-- A block an allocator returns, with what is in it. -/
structure Block where
  addr : Nat
  byte : Nat → Byte

/-- The allocator the loader is called with and the C library behind it; a build without the library's fallback is one whose
`stdlib` hook fails. `A` is whatever they keep. -/
structure Allocator (A : Type) where
  /-- `alloc_fn` is not NULL. -/
  hasAlloc : Bool
  /-- `free_fn` is not NULL. -/
  hasFree : Bool
  alloc : Hook → Nat → A → Option Block × A
  free : Hook → Nat → A → A

/-- What is asked of the allocator. -/
inductive AllocEvent where
  | alloc (via : Hook) (size : Nat) (addr : Option Nat)
  | free (via : Hook) (addr : Nat)
  deriving DecidableEq

/-- The pointer locals of `cvm_load_ex`. -/
structure Blocks where
  code : Option Block
  heap : Option Block
  importBlob : Option Block
  importNames : Option Block
  importFns : Option Block
  importUd : Option Block
  funcOffsets : Option Block
  regions : Option Block

/-- The state the loader works in. -/
structure LoadState (A : Type) where
  world : A
  events : List AllocEvent
  blocks : Blocks

/-- The state at the call. -/
def LoadState.start {A : Type} (world : A) : LoadState A :=
  { world, events := [], blocks := ⟨none, none, none, none, none, none, none, none⟩ }

/-- A piece of the loader. -/
abbrev Load (A α : Type) : Type := Exec (LoadState A) CvmResult α

/-- `(size_t)(-1)`. -/
def sizeMax : Nat := 2 ^ 64 - 1

/-- `sizeof(struct cvm_region)`. -/
def sizeofRegion : Nat := 28

/-- `sizeof` of a pointer. -/
def sizeofPtr : Nat := 8

section alloc

variable {A : Type} (al : Allocator A)

/-- `cvm_int_alloc`. -/
def cvmIntAlloc (n : Nat) : Load A (Option Block) := do
  if n = 0 then
    pure none
  else do
    let via := if al.hasAlloc then Hook.user else Hook.stdlib
    let s ← Exec.get
    let (p, world) := al.alloc via n s.world
    Exec.modify fun s => { s with world, events := s.events ++ [.alloc via n (p.map (·.addr))] }
    pure p

/-- `cvm_int_free`. -/
def cvmIntFree (p : Option Block) : Load A Unit :=
  match p with
  | none => pure ()
  | some p => do
    let via := if al.hasFree then Hook.user else Hook.stdlib
    Exec.modify fun s => { s with world := al.free via p.addr s.world, events := s.events ++ [.free via p.addr] }

/-- `cvm_int_calloc`. -/
def cvmIntCalloc (nElem elemSize : Nat) : Load A (Option Block) := do
  if nElem ≠ 0 ∧ elemSize > sizeMax / nElem then
    pure none
  else do
    let p ← cvmIntAlloc al (nElem * elemSize)
    pure (p.map fun p => { p with byte := fun _ => 0 })

/-- Free the named blocks, in order. -/
def freeEach : List (Blocks → Option Block) → Load A Unit
  | [] => pure ()
  | sel :: sels => do
    let s ← Exec.get
    cvmIntFree al (sel s.blocks)
    freeEach sels

/-- The label `oom`. -/
def oom {α : Type} : Load A α := do
  freeEach al [Blocks.code, Blocks.heap, Blocks.importBlob, Blocks.importNames, Blocks.importFns, Blocks.importUd,
    Blocks.funcOffsets, Blocks.regions]
  Exec.stop .nomem

/-- `p = …; if (!p) goto oom;` for the local that `set` assigns. -/
def keepOrOom (request : Load A (Option Block)) (set : Option Block → Blocks → Blocks) : Load A Unit := do
  let p ← request
  Exec.modify fun s => { s with blocks := set p s.blocks }
  Exec.when p.isNone (oom al)

end alloc

/-! ## The section table -/

/-- The locals the section loop fills: which types it has seen, and each section's place and size. -/
structure Sections where
  seen : SectionType → Bool
  off : SectionType → Word
  size : SectionType → Word
  hasCode : Bool

def Sections.empty : Sections := { seen := fun _ => false, off := fun _ => 0, size := fun _ => 0, hasCode := false }

/-- `x_off = file_off; x_size = size;`. -/
def Sections.place (t : Sections) (type : SectionType) (fileOff size : Word) : Sections :=
  { t with off := Function.update t.off type fileOff, size := Function.update t.size type size }

/-- `x_size = size;`. -/
def Sections.sized (t : Sections) (type : SectionType) (size : Word) : Sections :=
  { t with size := Function.update t.size type size }

variable {A : Type}

/-- `switch (type)` of the section loop. -/
def storeSection (t : Sections) (type : SectionType) (fileOff size : Word) : Load A Sections :=
  match type with
  | .code => do
    Exec.stopIf (size = 0 ∨ size % 4 ≠ 0) .badSection
    pure { t.place .code fileOff size with hasCode := true }
  | .data => pure (t.place .data fileOff size)
  | .bss => pure (t.sized .bss size)
  | .imports => pure (t.place .imports fileOff size)
  | .heapReserve => pure (t.sized .heapReserve size)
  | .stackReserve => pure (t.sized .stackReserve size)
  | .funcs => do
    Exec.stopIf (size = 0 ∨ size % 4 ≠ 0) .badFuncs
    pure (t.place .funcs fileOff size)
  | .hostRegion => pure (t.place .hostRegion fileOff size)
  | .rom => pure (t.place .rom fileOff size)
  | .metadata | .integritySeal | .debug => pure t

/-- One turn of the section loop. -/
def loadSection (base : List Byte) (tableOff : Word) (i : Nat) (t : Sections) : Load A Sections := do
  let sec := tableOff.toNat + i * sectionSize
  let type ← readU32Le base sec
  let fileOff ← readU32Le base (sec + 4)
  let size ← readU32Le base (sec + 8)
  let sflags ← readU32Le base (sec + 12)
  Exec.stopIf (sflags ≠ 0) .badSection
  match SectionType.ofNum? type with
  | none => Exec.stop .badSection
  | some type => do
    Exec.stopIf (type ≠ .debug ∧ t.seen type = true) .dupSection
    let t := if type ≠ .debug then { t with seen := Function.update t.seen type true } else t
    if type.hasPayload then
      Exec.stopIf (fileOff.toNat + size.toNat > base.length) .truncated
    else
      Exec.stopIf (fileOff ≠ 0) .badSection
    storeSection t type fileOff size

/-! ## Regions, totals and imports -/

/-- `(size + 3) & ~3` on 64 bits. -/
def align4 (size : Nat) : Nat := (size + 3) / 4 * 4

/-- One turn of the region loop: the total of the aligned sizes so far. -/
def loadRegionEntry (base : List Byte) (rp : Nat) (i : Nat) (total : Nat) : Load A Nat := do
  let e := rp + 4 + i * regionEntrySize
  let name ← readSlice base e 16
  Exec.stopIf ((0 : Byte) ∉ name) .badRegion
  let first ← readU8 base e
  Exec.stopIf (first = 0) .badRegion
  let rsize ← readU32Le base (e + 16)
  let rdir ← readU32Le base (e + 20)
  let rflag ← readU32Le base (e + 24)
  Exec.stopIf (rflag ≠ 0) .badRegion
  Exec.stopIf (rdir < regionR ∨ rdir > regionRw) .badRegion
  Exec.forRange i (fun j _ => do
    let other ← readSlice base (rp + 4 + j * regionEntrySize) 16
    Exec.stopIf (strncmpEq name other 16 = true) .badRegion) ()
  let total := total + align4 rsize.toNat
  Exec.stopIf (total > 0xFFFFFFFF) .badRegion
  pure total

/-- The region table: how many regions there are, and the total of their aligned sizes. -/
def loadRegions (base : List Byte) (t : Sections) : Load A (Word × Nat) := do
  if t.size .hostRegion > 0 then do
    Exec.stopIf (t.size .hostRegion < 4) .badRegion
    let rp := (t.off .hostRegion).toNat
    let regionCount ← readU32Le base rp
    Exec.stopIf (regionCount > 0xFFFF) .badRegion
    Exec.stopIf (4 + regionCount.toNat * regionEntrySize > (t.size .hostRegion).toNat) .badRegion
    let regionTotal ← Exec.forRange regionCount.toNat (loadRegionEntry base rp) 0
    pure (regionCount, regionTotal)
  else
    pure (0, 0)

/-- The import table: how many imports there are. -/
def loadImports (base : List Byte) (t : Sections) : Load A Word := do
  if t.size .imports > 0 then do
    Exec.stopIf (t.size .imports < 4) .badImports
    let ip := (t.off .imports).toNat
    let importCount ← readU32Le base ip
    Exec.stopIf (importCount > 0xFFFF) .badImports
    Exec.stopIf (4 + importCount.toNat * 4 > (t.size .imports).toNat) .badImports
    Exec.forRange importCount.toNat (fun i _ => do
      let nameOff ← readU32Le base (ip + 4 + i * 4)
      Exec.stopIf (nameOff ≥ t.size .imports) .badImports
      let name ← readSlice base (ip + nameOff.toNat) (t.size .imports - nameOff).toNat
      Exec.stopIf ((0 : Byte) ∉ name) .badImports) ()
    pure importCount
  else
    pure 0

/-- What the checks leave for the materialisation. -/
structure LoadPlan where
  entry : Word
  sections : Sections
  codeCount : Word
  regionCount : Word
  regionTotal : Nat
  romOffset : Word
  heapTotal : Nat
  memTotal : Nat
  importCount : Word

/-- `cvm_load_ex` up to its first allocation. -/
def loadPlan (base : List Byte) : Load A LoadPlan := do
  Exec.stopIf (base.length < headerSize) .truncated
  Exec.stopIf (magicOk base = false) .badMagic
  let version ← readU32Le base 4
  let flags ← readU32Le base 8
  let sectionCount ← readU32Le base 12
  let sectionTableOff ← readU32Le base 16
  let entry ← readU32Le base 20
  Exec.stopIf (version ≠ version10) .badVersion
  Exec.stopIf (flags ≠ 0) .badSection
  Exec.stopIf (sectionTableOff.toNat + sectionCount.toNat * sectionSize > base.length) .truncated
  let t ← Exec.forRange sectionCount.toNat (loadSection base sectionTableOff) Sections.empty
  Exec.stopIf (t.hasCode = false) .noCode
  let codeCount := t.size .code / 4
  Exec.stopIf (entry ≥ codeCount) .badEntry
  let (regionCount, regionTotal) ← loadRegions base t
  let romOffset := t.size .data + t.size .bss + BitVec.ofNat 32 regionTotal
  let heapTotal := (t.size .data).toNat + (t.size .bss).toNat + regionTotal + (t.size .rom).toNat
    + (t.size .heapReserve).toNat
  Exec.stopIf (heapTotal > 0xFFFFFFFF) .badSection
  Exec.stopIf (t.size .stackReserve ≠ 0 ∧ t.size .stackReserve < 4) .badSection
  let memTotal := heapTotal + (t.size .stackReserve).toNat
  Exec.stopIf (memTotal > 0xFFFFFFFF) .badSection
  let importCount ← loadImports base t
  pure { entry, sections := t, codeCount, regionCount, regionTotal, romOffset, heapTotal, memTotal, importCount }

/-! ## Materialisation -/

/-- The three tables of the imports: all are requested before any is tested. -/
def allocImportTables (al : Allocator A) (n : Nat) : Load A Unit := do
  let names ← cvmIntCalloc al n sizeofPtr
  let fns ← cvmIntCalloc al n sizeofPtr
  let ud ← cvmIntCalloc al n sizeofPtr
  Exec.modify fun s => { s with blocks := { s.blocks with importNames := names, importFns := fns, importUd := ud } }
  Exec.when (names.isNone ∨ fns.isNone ∨ ud.isNone) (oom al)

/-- The allocations of `cvm_load_ex`. -/
def loadAlloc (al : Allocator A) (p : LoadPlan) : Load A Unit := do
  let t := p.sections
  keepOrOom al (cvmIntAlloc al (t.size .code).toNat) fun b bs => { bs with code := b }
  Exec.when (p.memTotal > 0) (keepOrOom al (cvmIntAlloc al p.memTotal) fun b bs => { bs with heap := b })
  Exec.when (t.size .funcs > 0) (keepOrOom al (cvmIntAlloc al (t.size .funcs).toNat) fun b bs => { bs with funcOffsets := b })
  Exec.when (p.regionCount > 0)
    (keepOrOom al (cvmIntCalloc al p.regionCount.toNat sizeofRegion) fun b bs => { bs with regions := b })
  Exec.when (t.size .imports > 0) do
    keepOrOom al (cvmIntAlloc al (t.size .imports).toNat) fun b bs => { bs with importBlob := b }
    Exec.when (p.importCount > 0) (allocImportTables al p.importCount.toNat)

/-- The code words. -/
def loadCode (base : List Byte) (p : LoadPlan) : Load A (List Word) :=
  Exec.forRange p.codeCount.toNat (fun i code => do
    let w ← readU32Le base ((p.sections.off .code).toNat + i * 4)
    pure (code ++ [w])) []

/-- `memcpy(heap + dst, base + off, n)` and `memset(heap + dst, 0, n)`: a write into the block of the heap. -/
def fillHeap (heap : Mem) (dst n : Nat) (byte : Nat → Byte) : Load A Mem := do
  Exec.demand (dst + n ≤ heap.size)
  pure (heap.blit dst n byte)

/-- `if (n) memcpy(heap + dst, base + off, n);`. -/
def copyIn (base : List Byte) (heap : Mem) (dst off n : Nat) : Load A Mem :=
  if n ≠ 0 then do
    let src ← readSlice base off n
    fillHeap heap dst n fun k => src.getD k 0
  else pure heap

/-- `if (mem_total > data_size) memset(heap + data_size, 0, mem_total - data_size);`. -/
def zeroFill (heap : Mem) (dataSize memTotal : Nat) : Load A Mem :=
  if memTotal > dataSize then fillHeap heap dataSize (memTotal - dataSize) fun _ => 0 else pure heap

/-- The block the heap is built in, as the allocator returned it; the NULL pointer has no bytes. -/
def heapBlock (b : Option Block) (memTotal : Nat) : Mem :=
  match b with
  | none => { size := 0, byte := fun _ => 0 }
  | some b => { size := memTotal, byte := b.byte }

/-- The memory of the image: DATA, zeros, and the ROM over them. -/
def loadHeap (base : List Byte) (p : LoadPlan) : Load A Mem := do
  let t := p.sections
  let s ← Exec.get
  let heap ← copyIn base (heapBlock s.blocks.heap p.memTotal) 0 (t.off .data).toNat (t.size .data).toNat
  let heap ← zeroFill heap (t.size .data).toNat p.memTotal
  copyIn base heap p.romOffset.toNat (t.off .rom).toNat (t.size .rom).toNat

/-- The function table; an entry outside the code frees everything. -/
def loadFuncs (al : Allocator A) (base : List Byte) (p : LoadPlan) : Load A (Option (List Word)) := do
  if p.sections.size .funcs > 0 then do
    let funcs ← Exec.forRange (p.sections.size .funcs / 4).toNat (fun i funcs => do
      let off ← readU32Le base ((p.sections.off .funcs).toNat + i * 4)
      if off ≥ p.codeCount then do
        freeEach al [Blocks.code, Blocks.heap, Blocks.funcOffsets, Blocks.regions, Blocks.importBlob, Blocks.importNames,
          Blocks.importFns, Blocks.importUd]
        Exec.stop .badFuncs
      else pure (funcs ++ [off])) []
    pure (some funcs)
  else pure none

/-- The import blob and where the names start in it. -/
def loadImportNames (base : List Byte) (p : LoadPlan) : Load A (List Byte × List Nat) := do
  if p.sections.size .imports > 0 then do
    let blob ← readSlice base (p.sections.off .imports).toNat (p.sections.size .imports).toNat
    let names ← Exec.forRange p.importCount.toNat (fun i names => do
      let nameOff ← readU32Le blob (4 + i * 4)
      pure (names ++ [nameOff.toNat])) []
    pure (blob, names)
  else pure ([], [])

/-- The region descriptors; the 32-bit cursor starts after BSS. -/
def loadRegionTable (base : List Byte) (p : LoadPlan) : Load A (List Region) := do
  let rp := (p.sections.off .hostRegion).toNat
  let (regions, _) ← Exec.forRange p.regionCount.toNat (fun i acc => do
    let (regions, cursor) := acc
    let e := rp + 4 + i * regionEntrySize
    let name ← readSlice base e 16
    let size ← readU32Le base (e + 16)
    let direction ← readU32Le base (e + 20)
    pure (regions ++ [{ name, offset := cursor, size, direction }], cursor + ((size + 3) &&& ~~~3)))
    ([], p.sections.size .data + p.sections.size .bss)
  pure regions

/-- A C string literal. -/
def literal (s : String) : List Byte := s.toList.map fun c => BitVec.ofNat 8 c.toNat

/-- `BUILTIN_SYSCALLS`. -/
def builtinSyscalls : List (List Byte × Builtin) :=
  [(literal "cvm_sys_heap_start", .heapStart), (literal "cvm_sys_heap_size", .heapSize),
   (literal "cvm_sys_get_region", .getRegion), (literal "cvm_sys_rom_base", .romBase),
   (literal "cvm_sys_rom_size", .romSize)]

variable {κ : Type}

/-- `auto_bind_builtins`: an import is bound to the first library function of its name. -/
def autoBindBuiltins (img : Image κ) : Image κ :=
  { img with importFns := (List.range img.importFns.length).map fun i =>
      match builtinSyscalls.find? fun e => strcmpEq (img.importName i) e.1 with
      | some e => some (.builtin e.2)
      | none => img.importFns.getD i none }

/-- `cvm_load_ex`. -/
def cvmLoadEx (al : Allocator A) (base : List Byte) : Load A (Image κ) := do
  let p ← loadPlan base
  loadAlloc al p
  let code ← loadCode base p
  let heap ← loadHeap base p
  let funcOffsets ← loadFuncs al base p
  let (importBlob, importNames) ← loadImportNames base p
  let regions ← loadRegionTable base p
  let t := p.sections
  pure (autoBindBuiltins {
    code, codeCount := p.codeCount, heap, heapSize := BitVec.ofNat 32 p.heapTotal, dataSize := t.size .data,
    reserveSize := t.size .heapReserve, stackSize := t.size .stackReserve, memSize := BitVec.ofNat 32 p.memTotal,
    regions, regionCount := p.regionCount, romOffset := if t.size .rom ≠ 0 then p.romOffset else 0,
    romSize := t.size .rom, entry := p.entry, funcOffsets, funcCount := t.size .funcs / 4, importCount := p.importCount,
    importNames, importFns := List.replicate p.importCount.toNat none, importBlob })

end CronoVM
