import CronoVM.Format

/-!
# The binary writer of the translator

`write_bin`: the payloads, the section table with an entry for each section that is present, and the seal over all of it. Sizes and
offsets are natural numbers here and are written modulo 2³².
-/

namespace CronoVM

/-- `struct cli_region`. -/
structure CliRegion where
  name : List Byte
  size : Word
  direction : Word
  deriving DecidableEq

/-- The arguments of `write_bin`: of the functions, their entry offsets. -/
structure BinSource where
  code : List Word
  data : List Byte
  heapReserve : Word
  stackReserve : Word
  imports : List (List Byte)
  funcs : List Word
  emitFuncs : Bool
  regions : List CliRegion
  rom : List Byte
  metadata : List Byte
  sealed : Bool
  entry : Word

/-- `put_u32_le`. -/
def putU32Le (v : Word) : List Byte := [leByte v 0, leByte v 1, leByte v 2, leByte v 3]

/-- `CVM_FN_SLOT`. -/
def cvmFnSlot (fidx : Nat) : Nat := (fidx + 1) * 2

namespace BinSource

variable (src : BinSource)

/-! ## Payloads -/

/-- Where the names start in the import payload, the first at `cursor`. -/
def nameOffsets : List (List Byte) → Nat → List Nat
  | [], _ => []
  | name :: names, cursor => cursor :: nameOffsets names (cursor + name.length + 1)

/-- The IMPORTS payload: the count, the offsets and the names, each with its NUL. -/
def importsBuf : List Byte :=
  if src.imports.length > 0 then
    putU32Le (BitVec.ofNat 32 src.imports.length)
      ++ (nameOffsets src.imports (4 + src.imports.length * 4)).flatMap (fun off => putU32Le (BitVec.ofNat 32 off))
      ++ src.imports.flatMap (fun name => name ++ [0])
  else []

/-- The words of the FUNCS payload: zero but in the slots of the functions. -/
def funcsWords : List Word :=
  if src.emitFuncs ∧ src.funcs.length > 0 then
    src.funcs.zipIdx.foldl (fun buf e => buf.set (cvmFnSlot e.2) e.1)
      (List.replicate (cvmFnSlot (src.funcs.length - 1) + 1) 0)
  else []

def funcsBuf : List Byte := src.funcsWords.flatMap putU32Le

/-- One entry of the HOST_REGION payload. -/
def regionEntry (r : CliRegion) : List Byte := r.name.take 16 ++ putU32Le r.size ++ putU32Le r.direction ++ putU32Le 0

/-- The HOST_REGION payload. -/
def regionsBuf : List Byte :=
  if src.regions.length > 0 then putU32Le (BitVec.ofNat 32 src.regions.length) ++ src.regions.flatMap regionEntry else []

def codeBuf : List Byte := src.code.flatMap putU32Le

/-! ## Section table -/

/-- `section_count`. -/
def sectionCount : Nat :=
  1 + (if src.data.length > 0 then 1 else 0) + (if src.importsBuf.length > 0 then 1 else 0)
    + (if src.heapReserve > 0 then 1 else 0) + (if src.stackReserve > 0 then 1 else 0)
    + (if src.funcsBuf.length > 0 then 1 else 0) + (if src.regionsBuf.length > 0 then 1 else 0)
    + (if src.rom.length > 0 then 1 else 0) + (if src.metadata.length > 0 then 1 else 0)
    + (if src.sealed then 1 else 0)

def tableOff : Nat := 24

def codeOff : Nat := tableOff + src.sectionCount * 16

def dataOff : Nat := src.codeOff + src.code.length * 4

def importsOff : Nat := src.dataOff + src.data.length

def funcsOff : Nat := src.importsOff + src.importsBuf.length

def regionsOff : Nat := src.funcsOff + src.funcsBuf.length

def romOff : Nat := src.regionsOff + src.regionsBuf.length

def metadataOff : Nat := src.romOff + src.rom.length

def sealOff : Nat := src.metadataOff + src.metadata.length

/-- A section entry as it is written. -/
def sectionBytes (type : SectionType) (off size : Nat) : List Byte :=
  putU32Le type.num ++ putU32Le (BitVec.ofNat 32 off) ++ putU32Le (BitVec.ofNat 32 size) ++ putU32Le 0

/-- The header. -/
def header : List Byte :=
  [0x43, 0x56, 0x4D, 0x31] ++ putU32Le version10 ++ putU32Le 0 ++ putU32Le (BitVec.ofNat 32 src.sectionCount)
    ++ putU32Le (BitVec.ofNat 32 tableOff) ++ putU32Le src.entry

/-- The section table: CODE, then each other section that is present. -/
def table : List Byte :=
  sectionBytes .code src.codeOff (src.code.length * 4)
    ++ (if src.data.length > 0 then sectionBytes .data src.dataOff src.data.length else [])
    ++ (if src.importsBuf.length > 0 then sectionBytes .imports src.importsOff src.importsBuf.length else [])
    ++ (if src.heapReserve > 0 then sectionBytes .heapReserve 0 src.heapReserve.toNat else [])
    ++ (if src.stackReserve > 0 then sectionBytes .stackReserve 0 src.stackReserve.toNat else [])
    ++ (if src.funcsBuf.length > 0 then sectionBytes .funcs src.funcsOff src.funcsBuf.length else [])
    ++ (if src.regionsBuf.length > 0 then sectionBytes .hostRegion src.regionsOff src.regionsBuf.length else [])
    ++ (if src.rom.length > 0 then sectionBytes .rom src.romOff src.rom.length else [])
    ++ (if src.metadata.length > 0 then sectionBytes .metadata src.metadataOff src.metadata.length else [])
    ++ (if src.sealed then sectionBytes .integritySeal src.sealOff 12 else [])

/-- The payload of the seal, before its CRC is known. -/
def sealBuf : List Byte :=
  if src.sealed then putU32Le sealMagic ++ putU32Le 1 ++ putU32Le 0 else []

end BinSource

/-- `crc32_file_prefix`. -/
def crc32FilePrefix (file : List Byte) (n : Nat) : Word := (file.take n).foldl crc32Byte 0xFFFFFFFF ^^^ 0xFFFFFFFF

/-- Write `bytes` over what is at `p`. -/
def overwrite (file : List Byte) (p : Nat) (bytes : List Byte) : List Byte :=
  file.take p ++ bytes ++ file.drop (p + bytes.length)

/-- `write_bin`: the bytes of the file it leaves. -/
def writeBin (src : BinSource) : List Byte :=
  let file := src.header ++ src.table ++ src.codeBuf ++ src.data ++ src.importsBuf ++ src.funcsBuf ++ src.regionsBuf ++ src.rom
    ++ src.metadata ++ src.sealBuf
  if src.sealed then overwrite file (src.sealOff + 8) (putU32Le (crc32FilePrefix file src.sealOff)) else file

end CronoVM
