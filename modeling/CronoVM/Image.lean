import CronoVM.Isa

/-!
# Loaded images

`struct cvm_image` as the loader leaves it, the C string functions the library compares names with, and the syscalls the library
binds by itself.
-/

namespace CronoVM

/-! ## C strings -/

/-- The characters of a C string, up to its NUL. -/
def cstr (s : List Byte) : List Byte := s.takeWhile (· ≠ 0)

/-- `strcmp(s, t) == 0`. -/
def strcmpEq (s t : List Byte) : Bool := cstr s == cstr t

/-- `strncmp(s, t, n) == 0`. -/
def strncmpEq (s t : List Byte) (n : Nat) : Bool := cstr (s.take n) == cstr (t.take n)

/-! ## The image -/

/-- `struct cvm_region`. -/
structure Region where
  name : List Byte
  offset : Word
  size : Word
  direction : Word
  deriving DecidableEq

/-- The functions of `BUILTIN_SYSCALLS`. -/
inductive Builtin where
  | heapStart | heapSize | getRegion | romBase | romSize
  deriving DecidableEq, Repr

/-- What an entry of `import_fns` with its `import_userdata` points at: a function of the library or one `κ` of the host. -/
inductive SyscallFn (κ : Type) where
  | builtin (b : Builtin)
  | host (k : κ)

/-- `struct cvm_image`; a list stands for an allocated array, `none` for the NULL pointer. -/
structure Image (κ : Type) where
  code : List Word
  codeCount : Word
  heap : Mem
  heapSize : Word
  dataSize : Word
  reserveSize : Word
  stackSize : Word
  memSize : Word
  regions : List Region
  regionCount : Word
  romOffset : Word
  romSize : Word
  entry : Word
  funcOffsets : Option (List Word)
  funcCount : Word
  importCount : Word
  /-- `import_names[i]` points at this offset of `_import_blob`. -/
  importNames : List Nat
  importFns : List (Option (SyscallFn κ))
  importBlob : List Byte

variable {κ : Type}

/-- The characters of `import_names[i]`. -/
def Image.importName (img : Image κ) (i : Nat) : List Byte := cstr (img.importBlob.drop (img.importNames.getD i 0))

/-- The function table, empty when the pointer is NULL. -/
def Image.funcTable (img : Image κ) : List Word := img.funcOffsets.getD []

/-- The arrays of an image have the lengths its counts say, and what the function table and the entry name are places in the code. -/
structure Image.Wf (img : Image κ) : Prop where
  code_length : img.code.length = img.codeCount.toNat
  heap_size : img.heap.size = img.memSize.toNat
  funcs_length : img.funcTable.length = img.funcCount.toNat
  imports_length : img.importFns.length = img.importCount.toNat
  entry_lt : img.entry < img.codeCount
  func_lt : ∀ off ∈ img.funcTable, off < img.codeCount
  stack_le : img.stackSize ≤ img.memSize

end CronoVM
