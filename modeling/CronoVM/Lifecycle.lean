import CronoVM.Loader
import CronoVM.Machine

/-!
# What a host does with an image

`cvm_load_ex` with its out-parameter, and `cvm_image_free`; neither pointer is NULL here. `cvm_image_get_region`, and the syscall
`cvm_sys_get_region` that the library binds by itself.
-/

namespace CronoVM

open Checked

/-- `struct cvm_image` with the blocks its pointers name; of the stashed allocator, which hooks are not NULL. -/
structure OwnedImage (κ : Type) where
  fields : Image κ
  blocks : Blocks
  allocFn : Bool
  freeFn : Bool

/-- An image of zero bytes. -/
def Image.zero {κ : Type} : Image κ where
  code := []
  codeCount := 0
  heap := { size := 0, byte := fun _ => 0 }
  heapSize := 0
  dataSize := 0
  reserveSize := 0
  stackSize := 0
  memSize := 0
  regions := []
  regionCount := 0
  romOffset := 0
  romSize := 0
  entry := 0
  funcOffsets := none
  funcCount := 0
  importCount := 0
  importNames := []
  importFns := []
  importBlob := []

def OwnedImage.zero {κ : Type} : OwnedImage κ where
  fields := Image.zero
  blocks := ⟨none, none, none, none, none, none, none, none⟩
  allocFn := false
  freeFn := false

/-- The state of the host's calls: `*out`, and what the loader works in. -/
structure Lifecycle (A κ : Type) where
  out : OwnedImage κ
  load : LoadState A

variable {A κ : Type}

/-- A piece of the loader, inside a call of the host. -/
def liftLoad {α : Type} (m : Load A α) : Exec (Lifecycle A κ) CvmResult α := fun s =>
  match m s.load with
  | .val a t => .val a { s with load := t }
  | .stop e t => .stop e { s with load := t }
  | .oob => .oob

/-- `cvm_load_ex`: `*out` is cleared first and filled last. -/
def cvmLoadInto (al : Allocator A) (base : List Byte) : Exec (Lifecycle A κ) CvmResult Unit := do
  Exec.modify fun s => { s with out := OwnedImage.zero }
  let img ← liftLoad (cvmLoadEx al base)
  Exec.modify fun s => { s with out := { fields := img, blocks := s.load.blocks, allocFn := al.hasAlloc, freeFn := al.hasFree } }

/-- `cvm_image_free`: the allocator is made up again from what the image stashes. -/
def cvmImageFree (al : Allocator A) : Exec (Lifecycle A κ) CvmResult Unit := do
  let s ← Exec.get
  let img := s.out
  let a : Allocator A := { al with hasAlloc := img.allocFn, hasFree := img.freeFn }
  liftLoad (cvmIntFree a img.blocks.code)
  liftLoad (cvmIntFree a img.blocks.heap)
  liftLoad (cvmIntFree a img.blocks.importNames)
  liftLoad (cvmIntFree a img.blocks.importFns)
  liftLoad (cvmIntFree a img.blocks.importUd)
  liftLoad (cvmIntFree a img.blocks.importBlob)
  liftLoad (cvmIntFree a img.blocks.funcOffsets)
  liftLoad (cvmIntFree a img.blocks.regions)
  Exec.modify fun s => { s with out := OwnedImage.zero }

/-! ## Region lookup -/

section regions

/-- `n` bytes of memory from `p` on. -/
def Mem.chars (m : Mem) (p n : Nat) : List Byte := (List.range n).map fun k => m.byte (p + k)

variable {κ W : Type}

/-- The loop over the regions: the first that passes the test. -/
def Image.firstRegion (img : Image κ) (test : Region → Bool) : Option Region := (img.regions.take img.regionCount.toNat).find? test

/-- `cvm_image_get_region`; the region has the offset and the size that are written. -/
def cvmImageGetRegion (img : Image κ) (name : List Byte) : Except CvmResult Region :=
  match img.firstRegion fun r => strncmpEq r.name name 16 with
  | some r => .ok r
  | none => .error .noSuchRegion

/-- The loop that looks for the NUL of the string at `p`, with the turns it has left. -/
def nulScan (heap : Mem) (p : Nat) : Nat → Nat → Nat
  | 0, nlen => nlen
  | turns + 1, nlen => if heap.byte (p + nlen) ≠ 0#8 then nulScan heap p turns (nlen + 1) else nlen

/-- The region `builtin_sys_get_region` returns the offset of. -/
def sysRegion (img : Image κ) (heap : Mem) (addr : Word) : Option Region :=
  if addr ≥ img.heapSize then none
  else
    let maxlen := (img.heapSize - addr).toNat
    let maxlen := if maxlen > 16 then 16 else maxlen
    let nlen := nulScan heap addr.toNat maxlen 0
    if nlen = maxlen then none
    else img.firstRegion fun r => strncmpEq r.name (heap.chars addr.toNat 16) 16 && r.name.getD nlen 0 == 0#8

/-- `builtin_sys_get_region` -/
def builtinSysGetRegion (img : Image κ) (v : HostView κ W) : HostView κ W × Word :=
  let result := match sysRegion img v.heap (v.regs 0) with
    | some r => r.offset
    | none => -1#32
  ({ v with regs := Function.update v.regs 0 result }, 0)

end regions

end CronoVM
