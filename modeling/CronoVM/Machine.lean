import CronoVM.Lib.Checked
import CronoVM.Image

/-!
# The machine of the interpreter

The locals of `cvm_exec_at` and the memory they point at, the host the interpreter runs in, and the raw accesses its handlers are
written with. Each raw access is out of bounds unless its index lies inside the array it names.
-/

namespace CronoVM

open Checked

/-- The register file `int32_t R[256]`. -/
abbrev Regs : Type := Byte → Word

/-- What a syscall handler can reach: the image's memory and import bindings, the registers and the rest of the world. -/
structure HostView (κ W : Type) where
  regs : Regs
  heap : Mem
  importFns : List (Option (SyscallFn κ))
  world : W

/-- The state of a run of `cvm_exec_at`. -/
structure Frame (κ W : Type) extends HostView κ W where
  pc : Word

/-- The host's single-precision arithmetic and libm, on the bits of a `float`. -/
structure HostFloat where
  fadd : Word → Word → Word
  fsub : Word → Word → Word
  fmul : Word → Word → Word
  fdiv : Word → Word → Word
  feq : Word → Word → Bool
  fne : Word → Word → Bool
  flt : Word → Word → Bool
  fle : Word → Word → Bool
  fge : Word → Word → Bool
  sqrtf : Word → Word
  floorf : Word → Word
  ceilf : Word → Word
  truncf : Word → Word
  /-- `(int32_t)f` for an `f` in range. -/
  toI32 : Word → Word
  /-- `(uint32_t)f` for an `f` in range. -/
  toU32 : Word → Word
  /-- `(float)i`. -/
  ofI32 : Word → Word
  /-- `(float)u`. -/
  ofU32 : Word → Word

/-- The host's `memcpy`: `memmove` on ranges that do not overlap, and on those that do, something that writes its destination
only. -/
structure HostMemcpy where
  copy : Mem → Nat → Nat → Nat → Mem
  size_eq : ∀ (m : Mem) (dst src n : Nat), (copy m dst src n).size = m.size
  frame : ∀ (m : Mem) (dst src n i : Nat), i < dst ∨ dst + n ≤ i → (copy m dst src n).byte i = m.byte i
  disjoint : ∀ (m : Mem) (dst src n : Nat), dst + n ≤ src ∨ src + n ≤ dst → copy m dst src n = m.move dst src n

/-- A host: what its syscall handlers do, with the value they return, its float arithmetic and its `memcpy`. -/
structure Host (κ W : Type) where
  call : SyscallFn κ → HostView κ W → HostView κ W × Word
  float : HostFloat
  memcpy : HostMemcpy

/-- The handlers write guest memory only inside the heap; they may bind imports again, which keeps their number. -/
structure Host.WritesInside {κ W : Type} (host : Host κ W) : Prop where
  heap : ∀ (fn : SyscallFn κ) (v : HostView κ W), v.heap.SameOutside (host.call fn v).1.heap
  imports : ∀ (fn : SyscallFn κ) (v : HostView κ W), (host.call fn v).1.importFns.length = v.importFns.length

/-- How a run ends: the result code, and the word written through `return_value`. -/
structure Halt where
  code : CvmResult
  ret : Option Word
  deriving DecidableEq

/-- A piece of the interpreter. -/
abbrev Vm (κ W α : Type) : Type := Exec (Frame κ W) Halt α

/-! ## Saturating conversions -/

/-- `cvm_f32_to_i32_sat`; the constants are the bits of ±2³¹. -/
def cvmF32ToI32Sat (fl : HostFloat) (f : Word) : Word :=
  if fl.fne f f then 0
  else if fl.fge f 0x4F000000 then 0x7FFFFFFF
  else if fl.flt f 0xCF000000 then 0x80000000
  else fl.toI32 f

/-- `cvm_f32_to_u32_sat`; the constants are the bits of 2³² and 0. -/
def cvmF32ToU32Sat (fl : HostFloat) (f : Word) : Word :=
  if fl.fne f f then 0
  else if fl.fge f 0x4F800000 then 0xFFFFFFFF
  else if fl.flt f 0 then 0
  else fl.toU32 f

/-! ## Raw accesses -/

namespace Vm

variable {κ W : Type}

/-- `return e;` with an error code. -/
def fail {α : Type} (e : CvmResult) : Vm κ W α := Exec.stop ⟨e, none⟩

/-- `if (c) return e;`. -/
def failIf (c : Prop) [Decidable c] (e : CvmResult) : Vm κ W Unit := Exec.stopIf c ⟨e, none⟩

/-- `*return_value = v; return CVM_OK;`. -/
def done {α : Type} (v : Word) : Vm κ W α := Exec.stop ⟨.ok, some v⟩

/-- `R[i]`. -/
def regAt (i : Nat) : Vm κ W Word := do
  Exec.demand (i < regCount)
  let f ← Exec.get
  pure (f.regs (BitVec.ofNat 8 i))

/-- `R[i] = v`. -/
def setRegAt (i : Nat) (v : Word) : Vm κ W Unit := do
  Exec.demand (i < regCount)
  Exec.modify fun f => { f with regs := Function.update f.regs (BitVec.ofNat 8 i) v }

/-- `R[a]` for an instruction field `a`. -/
def reg (a : Byte) : Vm κ W Word := regAt a.toNat

/-- `R[a] = v` for an instruction field `a`. -/
def setReg (a : Byte) (v : Word) : Vm κ W Unit := setRegAt a.toNat v

def getPc : Vm κ W Word := do return (← Exec.get).pc

def setPc (pc : Word) : Vm κ W Unit := Exec.modify fun f => { f with pc := pc }

/-- `code[pc]`. -/
def codeAt (img : Image κ) (pc : Word) : Vm κ W Word := do
  Exec.demand (pc.toNat < img.code.length)
  pure (img.code.getD pc.toNat 0)

/-- `func_offsets[i]`. -/
def funcOffset (img : Image κ) (i : Word) : Vm κ W Word := do
  Exec.demand (i.toNat < img.funcTable.length)
  pure (img.funcTable.getD i.toNat 0)

/-- `img->import_fns[i]` and its user data. -/
def importFn (i : Word) : Vm κ W (Option (SyscallFn κ)) := do
  let f ← Exec.get
  Exec.demand (i.toNat < f.importFns.length)
  pure (f.importFns.getD i.toNat none)

/-- `heap[p]`. -/
def load8 (p : Nat) : Vm κ W Byte := do
  let f ← Exec.get
  Exec.demand (p < f.heap.size)
  pure (f.heap.byte p)

/-- `memcpy(&v, heap + p, 2)`. -/
def load16 (p : Nat) : Vm κ W (BitVec 16) := do
  let f ← Exec.get
  Exec.demand (p + 2 ≤ f.heap.size)
  pure (f.heap.half p)

/-- `memcpy(&v, heap + p, 4)`. -/
def load32 (p : Nat) : Vm κ W Word := do
  let f ← Exec.get
  Exec.demand (p + 4 ≤ f.heap.size)
  pure (f.heap.word p)

/-- Replace the heap by what a write of `n` bytes at `p` makes of it. -/
def writeAt (p n : Nat) (write : Mem → Mem) : Vm κ W Unit := do
  let f ← Exec.get
  Exec.demand (p + n ≤ f.heap.size)
  Exec.modify fun f => { f with heap := write f.heap }

/-- `heap[p] = v`. -/
def store8 (p : Nat) (v : Byte) : Vm κ W Unit := writeAt p 1 (·.setByte p v)

/-- `memcpy(heap + p, &v, 2)`. -/
def store16 (p : Nat) (v : BitVec 16) : Vm κ W Unit := writeAt p 2 (·.setHalf p v)

/-- `memcpy(heap + p, &v, 4)`. -/
def store32 (p : Nat) (v : Word) : Vm κ W Unit := writeAt p 4 (·.setWord p v)

/-- `memset(heap + dst, v, n)`. -/
def memset (dst : Nat) (v : Byte) (n : Nat) : Vm κ W Unit := writeAt dst n (·.blit dst n fun _ => v)

/-- `memmove(heap + dst, heap + src, n)`. -/
def memmove (dst src n : Nat) : Vm κ W Unit := do
  let f ← Exec.get
  Exec.demand (src + n ≤ f.heap.size)
  writeAt dst n (·.move dst src n)

/-- `memcpy(heap + dst, heap + src, n)`. -/
def memcpy (host : Host κ W) (dst src n : Nat) : Vm κ W Unit := do
  let f ← Exec.get
  Exec.demand (src + n ≤ f.heap.size)
  writeAt dst n (host.memcpy.copy · dst src n)

/-- `fn(img, R, userdata)`: the handler's return value. -/
def callFn (host : Host κ W) (fn : SyscallFn κ) : Vm κ W Word := do
  let f ← Exec.get
  let (v, status) := host.call fn f.toHostView
  Exec.modify fun f => { f with toHostView := v }
  pure status

/-! ## Their weakest preconditions -/

section wp

variable {Q : Word → Frame κ W → Prop} {U : Unit → Frame κ W → Prop} {E : Halt → Frame κ W → Prop} {f : Frame κ W}

/-- A register number is in the bank. -/
theorem toNat_lt_regCount (a : Byte) : a.toNat < regCount := a.isLt

/-- A trap. -/
@[simp] theorem wp_fail {α : Type} {P : α → Frame κ W → Prop} (e : CvmResult) :
    Exec.wp (fail e) P E f ↔ E ⟨e, none⟩ f := Iff.rfl

/-- A trap under a condition. -/
@[simp] theorem wp_failIf (c : Prop) [Decidable c] (e : CvmResult) :
    Exec.wp (failIf c e) U E f ↔ (c → E ⟨e, none⟩ f) ∧ (¬c → U () f) := Exec.wp_stopIf c _

@[simp] theorem wp_done {α : Type} {P : α → Frame κ W → Prop} (v : Word) :
    Exec.wp (done v) P E f ↔ E ⟨.ok, some v⟩ f := Iff.rfl

@[simp] theorem wp_regAt (i : Nat) : Exec.wp (regAt i) Q E f ↔ i < regCount ∧ Q (f.regs (BitVec.ofNat 8 i)) f := by
  simp [regAt]

@[simp] theorem wp_setRegAt (i : Nat) (v : Word) : Exec.wp (setRegAt i v) U E f ↔
    i < regCount ∧ U () { f with regs := Function.update f.regs (BitVec.ofNat 8 i) v } := by
  simp [setRegAt]

/-- A register field cannot leave the register file. -/
@[simp] theorem wp_reg (a : Byte) : Exec.wp (reg a) Q E f ↔ Q (f.regs a) f := by
  simp [reg, toNat_lt_regCount]

@[simp] theorem wp_setReg (a : Byte) (v : Word) :
    Exec.wp (setReg a v) U E f ↔ U () { f with regs := Function.update f.regs a v } := by
  simp [setReg, toNat_lt_regCount]

@[simp] theorem wp_getPc : Exec.wp getPc Q E f ↔ Q f.pc f := by simp [getPc]

@[simp] theorem wp_setPc (pc : Word) : Exec.wp (setPc pc) U E f ↔ U () { f with pc := pc } := by simp [setPc]

/-- A fetch must be in the code. -/
@[simp] theorem wp_codeAt (img : Image κ) (pc : Word) :
    Exec.wp (codeAt img pc) Q E f ↔ pc.toNat < img.code.length ∧ Q (img.code.getD pc.toNat 0) f := by
  simp [codeAt]

@[simp] theorem wp_funcOffset (img : Image κ) (i : Word) :
    Exec.wp (funcOffset img i) Q E f ↔ i.toNat < img.funcTable.length ∧ Q (img.funcTable.getD i.toNat 0) f := by
  simp [funcOffset]

@[simp] theorem wp_importFn {P : Option (SyscallFn κ) → Frame κ W → Prop} (i : Word) :
    Exec.wp (importFn i) P E f ↔ i.toNat < f.importFns.length ∧ P (f.importFns.getD i.toNat none) f := by
  simp [importFn]

@[simp] theorem wp_load8 {P : Byte → Frame κ W → Prop} (p : Nat) :
    Exec.wp (load8 p) P E f ↔ p < f.heap.size ∧ P (f.heap.byte p) f := by
  simp [load8]

@[simp] theorem wp_load16 {P : BitVec 16 → Frame κ W → Prop} (p : Nat) :
    Exec.wp (load16 p) P E f ↔ p + 2 ≤ f.heap.size ∧ P (f.heap.half p) f := by
  simp [load16]

/-- A load of a word must be in memory. -/
@[simp] theorem wp_load32 (p : Nat) : Exec.wp (load32 p) Q E f ↔ p + 4 ≤ f.heap.size ∧ Q (f.heap.word p) f := by
  simp [load32]

/-- A write must be in memory. -/
@[simp] theorem wp_writeAt (p n : Nat) (write : Mem → Mem) :
    Exec.wp (writeAt p n write) U E f ↔ p + n ≤ f.heap.size ∧ U () { f with heap := write f.heap } := by
  simp [writeAt]

/-- A move must be in memory on both sides. -/
@[simp] theorem wp_memmove (dst src n : Nat) : Exec.wp (memmove dst src n) U E f ↔
    src + n ≤ f.heap.size ∧ dst + n ≤ f.heap.size ∧ U () { f with heap := f.heap.move dst src n } := by
  simp [memmove]

@[simp] theorem wp_memcpy (host : Host κ W) (dst src n : Nat) : Exec.wp (memcpy host dst src n) U E f ↔
    src + n ≤ f.heap.size ∧ dst + n ≤ f.heap.size ∧ U () { f with heap := host.memcpy.copy f.heap dst src n } := by
  simp [memcpy]

/-- A call of a host function replaces what the host sees. -/
@[simp] theorem wp_callFn (host : Host κ W) (fn : SyscallFn κ) : Exec.wp (callFn host fn) Q E f ↔
    Q (host.call fn f.toHostView).2 { f with toHostView := (host.call fn f.toHostView).1 } := by
  simp [callFn]

end wp

end Vm

end CronoVM
