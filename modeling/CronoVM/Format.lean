import CronoVM.Image
import CronoVM.Lib.Checked

/-!
# The binary format

The constants of a `.bin` file: header, section types, region directions. A file is the list of its bytes, and reading it outside is
out of bounds.
-/

namespace CronoVM

open Checked

/-! ## Constants -/

/-- `CVM_HEADER_SIZE`. -/
def headerSize : Nat := 24

/-- `CVM_SECTION_SIZE`. -/
def sectionSize : Nat := 16

/-- `CVM_REGION_ENTRY_SIZE`. -/
def regionEntrySize : Nat := 28

/-- `CVM_VERSION_1_0`. -/
def version10 : Word := 0x00010000

/-- `CVM_SEAL_MAGIC`. -/
def sealMagic : Word := 0x314D5243

/-- `CVM_REGION_R`. -/
def regionR : Word := 1

/-- `CVM_REGION_RW`. -/
def regionRw : Word := 3

/-- `enum cvm_section_type`. -/
inductive SectionType where
  | code | data | bss | imports | debug | heapReserve | stackReserve | funcs | hostRegion | rom | metadata | integritySeal
  deriving DecidableEq, Repr

namespace SectionType

/-- The number of a section type. -/
def num : SectionType → Word
  | .code => 1
  | .data => 2
  | .bss => 3
  | .imports => 4
  | .debug => 5
  | .heapReserve => 6
  | .stackReserve => 7
  | .funcs => 8
  | .hostRegion => 9
  | .rom => 10
  | .metadata => 11
  | .integritySeal => 12

/-- The section type with a given number; none for 0 and the numbers above `CVM_MAX_SEC_TYPE`. -/
def ofNum? (w : Word) : Option SectionType :=
  [.code, .data, .bss, .imports, .debug, .heapReserve, .stackReserve, .funcs, .hostRegion, .rom, .metadata, .integritySeal].find?
    fun t => t.num == w

@[simp] theorem ofNum?_num (t : SectionType) : ofNum? t.num = some t := by cases t <;> rfl

theorem num_of_ofNum? {w : Word} {t : SectionType} (h : ofNum? w = some t) : t.num = w := by
  simpa using List.find?_some h

theorem num_injective : Function.Injective num := by
  intro t u h
  have ht := ofNum?_num t
  rw [h, ofNum?_num] at ht
  exact (Option.some.inj ht).symm

/-- Whether the type's section has bytes in the file; `bss`, `heapReserve` and `stackReserve` have a size only. -/
def hasPayload (t : SectionType) : Bool := t ≠ .bss ∧ t ≠ .heapReserve ∧ t ≠ .stackReserve

end SectionType

/-! ## Reading a file -/

/-- The word at `p`. -/
def u32At (bytes : List Byte) (p : Nat) : Word := leWord fun k => bytes.getD (p + k) 0

/-- The `n` bytes at `p`. -/
def sliceAt (bytes : List Byte) (p n : Nat) : List Byte := (bytes.drop p).take n

section reads

variable {σ : Type}

/-- `base[p]`. -/
def readU8 (bytes : List Byte) (p : Nat) : Exec σ CvmResult Byte := do
  Exec.demand (p < bytes.length)
  pure (bytes.getD p 0)

/-- `read_u32_le(base + p)`. -/
def readU32Le (bytes : List Byte) (p : Nat) : Exec σ CvmResult Word := do
  Exec.demand (p + 4 ≤ bytes.length)
  pure (u32At bytes p)

/-- The `n` bytes a library function is given at `base + p`. -/
def readSlice (bytes : List Byte) (p n : Nat) : Exec σ CvmResult (List Byte) := do
  Exec.demand (p + n ≤ bytes.length)
  pure (sliceAt bytes p n)

variable {E : CvmResult → σ → Prop} {s : σ}

@[simp] theorem wp_readU8 {Q : Byte → σ → Prop} (bytes : List Byte) (p : Nat) :
    Exec.wp (readU8 bytes p) Q E s ↔ p < bytes.length ∧ Q (bytes.getD p 0) s := by simp [readU8]

@[simp] theorem wp_readU32Le {Q : Word → σ → Prop} (bytes : List Byte) (p : Nat) :
    Exec.wp (readU32Le bytes p) Q E s ↔ p + 4 ≤ bytes.length ∧ Q (u32At bytes p) s := by simp [readU32Le]

@[simp] theorem wp_readSlice {Q : List Byte → σ → Prop} (bytes : List Byte) (p n : Nat) :
    Exec.wp (readSlice bytes p n) Q E s ↔ p + n ≤ bytes.length ∧ Q (sliceAt bytes p n) s := by simp [readSlice]

end reads

/-- The first bytes of a file are the magic `CVM1`. -/
def magicOk (bytes : List Byte) : Bool := bytes.take 4 == [0x43, 0x56, 0x4D, 0x31]

/-! ## Reading a file without loading it

`cvm_peek_section`, `cvm_crc32` and `cvm_seal_check`. -/

/-- What `cvm_peek_section` returns: -1, 0, or 1 with the place and size of the payload. -/
inductive PeekResult where
  | malformed
  | absent
  | found (off : Nat) (size : Word)
  deriving DecidableEq, Repr

/-- The loop of `cvm_peek_section` from entry `i` on, with `n` entries left. -/
def peekFrom (base : List Byte) (tableOff : Word) (type : Word) : Nat → Nat → PeekResult
  | 0, _ => .absent
  | n + 1, i =>
    let sec := tableOff.toNat + i * sectionSize
    let t := u32At base sec
    let fo := u32At base (sec + 4)
    let sz := u32At base (sec + 8)
    if t ≠ type then peekFrom base tableOff type n (i + 1)
    else if fo.toNat + sz.toNat > base.length then .malformed
    else .found fo.toNat sz

/-- `cvm_peek_section`. -/
def cvmPeekSection (base : List Byte) (type : SectionType) : PeekResult :=
  if base.length < headerSize then .malformed
  else if magicOk base = false then .malformed
  else
    let sectionCount := u32At base 12
    let sectionTableOff := u32At base 16
    if sectionTableOff.toNat + sectionCount.toNat * sectionSize > base.length then .malformed
    else peekFrom base sectionTableOff type.num sectionCount.toNat 0

/-- One bit of the CRC. -/
def crc32Bit (crc : Word) : Word := (crc >>> 1) ^^^ (0xEDB88320 &&& -(crc &&& 1))

/-- One byte of the CRC: the byte, then eight bits. -/
def crc32Byte (crc : Word) (b : Byte) : Word :=
  crc32Bit (crc32Bit (crc32Bit (crc32Bit (crc32Bit (crc32Bit (crc32Bit (crc32Bit (crc ^^^ b.setWidth 32))))))))

/-- `cvm_crc32`. -/
def cvmCrc32 (data : List Byte) : Word := data.foldl crc32Byte 0xFFFFFFFF ^^^ 0xFFFFFFFF

/-- `cvm_seal_check`: 1 for a seal that matches, 0 for none, -1 otherwise. -/
def cvmSealCheck (base : List Byte) : Int :=
  match cvmPeekSection base .integritySeal with
  | .malformed => -1
  | .absent => 0
  | .found sealAt sz =>
    if sz < 12 ∨ u32At base sealAt ≠ sealMagic then -1
    else
      let stored := u32At base (sealAt + 8)
      if cvmCrc32 (base.take sealAt) = stored then 1 else -1

end CronoVM
