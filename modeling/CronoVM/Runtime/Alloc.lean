import CronoVM.Lib.Memory

/-!
# The heap allocator

`cvm_alloc.h` of the runtime library: blocks with boundary tags and an explicit free list, in guest memory. Pointers and `int32_t` are words;
sizes are compared as signed numbers and pointers as unsigned ones.
-/

namespace CronoVM

/-- The statics of the allocator, and the memory they point into. -/
structure AllocState where
  mem : Mem
  heapStart : Word
  heapEnd : Word
  freeHead : Word
  inited : Bool

def cvmHdr : Word := 4#32

def cvmFtr : Word := 4#32

def cvmMin : Word := 16#32

/-- `_CVM_SIZE` -/
def cvmSize (m : Mem) (b : Word) : Word := m.word b.toNat &&& ~~~1#32

/-- `_CVM_FREE` -/
def cvmFreeFlag (m : Mem) (b : Word) : Word := m.word b.toNat &&& 1#32

/-! ## Links and stamps -/

def cvmFlNext (m : Mem) (b : Word) : Word := m.word (b + 4#32).toNat

def cvmFlPrev (m : Mem) (b : Word) : Word := m.word (b + 8#32).toNat

def cvmFlSetNext (s : AllocState) (b v : Word) : AllocState := { s with mem := s.mem.setWord (b + 4#32).toNat v }

def cvmFlSetPrev (s : AllocState) (b v : Word) : AllocState := { s with mem := s.mem.setWord (b + 8#32).toNat v }

/-- `_cvm_stamp`: the header and the footer of a block. -/
def cvmStamp (s : AllocState) (b size : Word) (free : Bool) : AllocState :=
  let m := s.mem.setWord b.toNat (size ||| if free then 1#32 else 0#32)
  { s with mem := m.setWord (b + size - cvmFtr).toNat size }

/-- `_cvm_fl_push` -/
def cvmFlPush (s : AllocState) (b : Word) : AllocState :=
  let s := cvmFlSetPrev s b 0#32
  let s := cvmFlSetNext s b s.freeHead
  let s := if s.freeHead ≠ 0#32 then cvmFlSetPrev s s.freeHead b else s
  { s with freeHead := b }

/-- `_cvm_fl_remove` -/
def cvmFlRemove (s : AllocState) (b : Word) : AllocState :=
  let pv := cvmFlPrev s.mem b
  let nx := cvmFlNext s.mem b
  let s := if pv ≠ 0#32 then cvmFlSetNext s pv nx else { s with freeHead := nx }
  if nx ≠ 0#32 then cvmFlSetPrev s nx pv else s

/-! ## The interface -/

/-- `cvm_alloc_init`, for what `cvm_sys_heap_start` and `cvm_sys_heap_size` give. -/
def cvmAllocInit (sysHeapStart sysHeapSize : Word) (s : AllocState) : AllocState :=
  if s.inited then s
  else
    let s := { s with heapStart := sysHeapStart, heapEnd := sysHeapStart + sysHeapSize, freeHead := 0#32 }
    let total := (s.heapEnd - s.heapStart) &&& ~~~3#32
    let s :=
      if cvmMin.sle total then
        let s := { s with heapEnd := s.heapStart + total }
        cvmFlPush (cvmStamp s s.heapStart total true) s.heapStart
      else { s with heapEnd := s.heapStart }
    { s with inited := true }

/-- Takes a block out of the free list, and pushes what is left of it if that is a block. -/
def cvmTake (s : AllocState) (b sz want : Word) : AllocState :=
  let s := cvmFlRemove s b
  let leftover := sz - want
  if cvmMin.sle leftover then
    let s := cvmStamp s b want false
    let r := b + want
    cvmFlPush (cvmStamp s r leftover true) r
  else cvmStamp s b sz false

/-- The walk of `cvm_malloc` along the free list, for at most as many nodes as there is fuel. -/
def cvmMallocWalk (want : Word) (s : AllocState) : Nat → Word → Option (Word × AllocState)
  | 0, _ => none
  | fuel + 1, b =>
    if b ≠ 0#32 then
      let sz := cvmSize s.mem b
      if want.sle sz then some (b + cvmHdr, cvmTake s b sz want)
      else cvmMallocWalk want s fuel (cvmFlNext s.mem b)
    else some (0#32, s)

/-- The size of the block for a request. -/
def cvmWant (bytes : Word) : Word :=
  let need := (bytes + 3#32) &&& ~~~3#32
  let need := if need.slt 8#32 then 8#32 else need
  need + cvmHdr + cvmFtr

/-- `cvm_malloc`: the pointer it returns, and the state. -/
def cvmMalloc (sysHeapStart sysHeapSize : Word) (fuel : Nat) (bytes : Word) (s : AllocState) : Option (Word × AllocState) :=
  let s := if s.inited then s else cvmAllocInit sysHeapStart sysHeapSize s
  if bytes.sle 0#32 then some (0#32, s)
  else cvmMallocWalk (cvmWant bytes) s fuel s.freeHead

/-- The next physical block joins a block that is freed: the state, and the size of both. -/
def cvmFreeJoinNext (s : AllocState) (b sz : Word) : AllocState × Word :=
  let nx := b + sz
  if nx < s.heapEnd ∧ cvmFreeFlag s.mem nx ≠ 0#32 then
    let s := cvmFlRemove s nx
    (s, sz + cvmSize s.mem nx)
  else (s, sz)

/-- The previous physical block, found by its footer, joins a block that is freed: the state, and the address and the size of both. -/
def cvmFreeJoinPrev (s : AllocState) (b sz : Word) : AllocState × Word × Word :=
  if b > s.heapStart then
    let psz := s.mem.word (b - cvmFtr).toNat
    let pb := b - psz
    if pb ≥ s.heapStart ∧ cvmFreeFlag s.mem pb ≠ 0#32 then (cvmFlRemove s pb, pb, sz + psz) else (s, b, sz)
  else (s, b, sz)

/-- `cvm_free` -/
def cvmFree (p : Word) (s : AllocState) : AllocState :=
  if p = 0#32 then s
  else
    let b := p - cvmHdr
    let next := cvmFreeJoinNext s b (cvmSize s.mem b)
    let prev := cvmFreeJoinPrev next.1 b next.2
    cvmFlPush (cvmStamp prev.1 prev.2.1 prev.2.2 true) prev.2.1

end CronoVM
